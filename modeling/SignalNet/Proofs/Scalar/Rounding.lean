import SignalNet.Proofs.Scalar.Products

/-!
# Rounding doubles

A number is rounded by shifting its digits to where a double has them and
going to the nearest number.  Its *size* counts how many times the least
positive double goes into it, so that sizes are natural numbers, and numbers
are compared by their sizes.

Rounding does not cross a double: what is rounded stays on the same side of
every double (`Double.round_written`).  The result is packed without loss
(`Double.unpack_pack`), unless it is too large, which makes it an infinity
(`Double.unpack_pack_beyond`).
-/

namespace SignalNet.Double

open Float.Model Float.Model.UnpackedFloat

/-! ### Sizes -/

/-- How many times the least positive double goes into a number. -/
def size (m : Nat) (e : Int) : Nat :=
  m * 2 ^ (e + 1074).toNat

/-- The least size that is too large for a double. -/
def beyond : Nat :=
  size 1 1024

/-- Digits as doubles have them, with any exponent that is not too small. -/
structure Written (m : Nat) (e : Int) : Prop where
  least : -1074 ≤ e
  short : m < 2 ^ 53
  full : 2 ^ 52 ≤ m ∨ e = -1074

/-- The digits and the exponent of a double. -/
structure Digits (m : Nat) (e : Int) : Prop extends Written m e where
  greatest : e ≤ 971

/-- Digits are shifted up when the exponent is lowered. -/
theorem size_shift (m : Nat) {e : Int} (he : -1074 ≤ e) (j : Nat) :
    size m (e + j) = size (m * 2 ^ j) e := by
  unfold size
  rw [show (e + j + 1074).toNat = j + (e + 1074).toNat by omega, Nat.pow_add, ← Nat.mul_assoc]

/-- Of two numbers the one with the larger exponent is larger, if it uses all
digits. -/
theorem Written.size_lt_shift {m : Nat} {e : Int} (h : Written m e) {m' : Nat} {e' : Int}
    (hexponent : e < e') (hfull : 2 ^ 52 ≤ m') : size m e < size m' e' := by
  obtain ⟨j, rfl⟩ : ∃ j : Nat, e' = e + ((j + 1 : Nat) : Int) := ⟨(e' - e - 1).toNat, by omega⟩
  rw [size_shift m' h.least]
  unfold size
  refine Nat.mul_lt_mul_of_pos_right ?_ (Nat.two_pow_pos _)
  calc m < 2 ^ 52 * 2 := h.short
    _ ≤ m' * 2 ^ (j + 1) :=
      Nat.mul_le_mul hfull (Nat.le_self_pow (Nat.succ_ne_zero j) 2)

/-- **Sizes are compared** by exponents first and by digits then. -/
theorem Written.compare_size {m m' : Nat} {e e' : Int} (h : Written m e) (h' : Written m' e') :
    compare (size m e) (size m' e') = (compare e e').then (compare m m') := by
  rcases lt_trichotomy e e' with hlt | rfl | hgt
  · have hfull : 2 ^ 52 ≤ m' := h'.full.resolve_right (by have := h.least; omega)
    rw [compare_lt_iff_lt.mpr hlt, compare_lt_iff_lt.mpr (h.size_lt_shift hlt hfull)]
    rfl
  · rw [compare_eq_iff_eq.mpr rfl]
    have hpos : 0 < 2 ^ (e + 1074).toNat := Nat.two_pow_pos _
    show compare (m * _) (m' * _) = compare m m'
    rcases lt_trichotomy m m' with hlt | rfl | hgt
    · rw [compare_lt_iff_lt.mpr hlt, compare_lt_iff_lt.mpr (Nat.mul_lt_mul_of_pos_right hlt hpos)]
    · rw [compare_eq_iff_eq.mpr rfl, compare_eq_iff_eq.mpr rfl]
    · rw [compare_gt_iff_gt.mpr hgt, compare_gt_iff_gt.mpr (Nat.mul_lt_mul_of_pos_right hgt hpos)]
  · have hfull : 2 ^ 52 ≤ m := h.full.resolve_right (by have := h'.least; omega)
    rw [compare_gt_iff_gt.mpr hgt, compare_gt_iff_gt.mpr (h'.size_lt_shift hgt hfull)]
    rfl

theorem Digits.size_lt {m : Nat} {e : Int} (h : Digits m e) : size m e < beyond := by
  have hgreatest := h.greatest
  obtain ⟨j, hj⟩ : ∃ j : Nat, (1024 : Int) = e + ((53 + j : Nat) : Int) :=
    ⟨(971 - e).toNat, by omega⟩
  rw [beyond, hj, size_shift 1 h.least]
  unfold size
  refine Nat.mul_lt_mul_of_pos_right ?_ (Nat.two_pow_pos _)
  calc m < 2 ^ 53 := h.short
    _ ≤ 2 ^ (53 + j) := Nat.pow_le_pow_right Nat.two_pos (Nat.le_add_right 53 j)
    _ = 1 * 2 ^ (53 + j) := (Nat.one_mul _).symm

theorem size_pos {m : Nat} (hm : 0 < m) (e : Int) : 0 < size m e :=
  Nat.mul_pos hm (Nat.two_pow_pos _)

theorem beyond_pos : 0 < beyond :=
  size_pos Nat.one_pos 1024

/-! ### Rounding -/

/-- The digits that are left after a shift to the right, rounded to the nearest
number. -/
def rounded (m k : Nat) : Nat :=
  ((⟨m, false, false⟩ : ExtendedMantissa) >>> k).roundedMantissa

theorem shiftRight_mantissa (em : ExtendedMantissa) (k : Nat) :
    (em >>> k).mantissa = em.mantissa / 2 ^ k := by
  show (k.repeat ExtendedMantissa.shiftRightOne em).mantissa = _
  induction k with
  | zero => exact (Nat.div_one _).symm
  | succ k ih =>
      show (ExtendedMantissa.shiftRightOne (k.repeat _ em)).mantissa = _
      rw [ExtendedMantissa.shiftRightOne, ih, Nat.div_div_eq_div_mul, Nat.pow_succ]

theorem roundedMantissa_bounds (em : ExtendedMantissa) :
    em.mantissa ≤ em.roundedMantissa ∧ em.roundedMantissa ≤ em.mantissa + 1 := by
  unfold ExtendedMantissa.roundedMantissa
  rcases em with ⟨m, _ | _, _ | _⟩ <;>
    simp only [ExtendedMantissa.accuracy, Accuracy.roundToNearestEven] <;> omega

theorem le_rounded {m k c : Nat} (h : c * 2 ^ k ≤ m) : c ≤ rounded m k := by
  have hdiv : c ≤ m / 2 ^ k := (Nat.le_div_iff_mul_le (Nat.two_pow_pos k)).mpr h
  refine hdiv.trans ?_
  have hbounds := (roundedMantissa_bounds ((⟨m, false, false⟩ : ExtendedMantissa) >>> k)).1
  rwa [shiftRight_mantissa] at hbounds

theorem rounded_le {m k c : Nat} (h : m ≤ c * 2 ^ k) : rounded m k ≤ c := by
  by_cases hexact : 2 ^ k ∣ m
  · obtain ⟨q, rfl⟩ := hexact
    rw [Nat.mul_comm] at h ⊢
    unfold rounded
    rw [shiftRight_exact]
    exact Nat.le_of_mul_le_mul_right h (Nat.two_pow_pos k)
  · have hne : m ≠ c * 2 ^ k := fun heq => hexact ⟨c, by rw [heq, Nat.mul_comm]⟩
    have hdiv : m / 2 ^ k < c :=
      (Nat.div_lt_iff_lt_mul (Nat.two_pow_pos k)).mpr (Nat.lt_of_le_of_ne h hne)
    have hbounds := (roundedMantissa_bounds ((⟨m, false, false⟩ : ExtendedMantissa) >>> k)).2
    rw [shiftRight_mantissa] at hbounds
    exact hbounds.trans hdiv

/-- Where rounding puts the digits of a number. -/
def target (m : Nat) (e : Int) : Int :=
  Format.binary64.targetExponent (totalExponent m e)

theorem target_eq (m : Nat) (e : Int) : target m e = max (m.log2 + 1 + e - 53) (-1074) :=
  rfl

section Rounding

variable {m k : Nat} {e : Int} (hm : 0 < m) (htarget : target m e = e + k)

include hm htarget

/-- No more than 53 digits are left, and all of them are used unless the
exponent is the least one. -/
theorem target_digits : m < 2 ^ 53 * 2 ^ k ∧ (2 ^ 52 * 2 ^ k ≤ m ∨ e + k = -1074) := by
  rw [target_eq] at htarget
  rw [← Nat.pow_add, ← Nat.pow_add]
  refine ⟨(Nat.log2_lt hm.ne').mp (by omega), ?_⟩
  rcases max_choice ((m.log2 : Int) + 1 + e - 53) (-1074) with h | h
  · exact Or.inl ((Nat.le_log2 hm.ne').mp (by omega))
  · exact Or.inr (by omega)

theorem rounded_short : rounded m k ≤ 2 ^ 53 :=
  rounded_le (target_digits hm htarget).1.le

theorem rounded_full : 2 ^ 52 ≤ rounded m k ∨ e + k = -1074 :=
  (target_digits hm htarget).2.imp_left le_rounded

/-- **Rounding does not cross a double.** -/
theorem rounded_between (he : -1074 ≤ e) {m' : Nat} {e' : Int} (hdigits : Written m' e') :
    (size m' e' ≤ size m e → size m' e' ≤ size (rounded m k) (e + k)) ∧
      (size m e ≤ size m' e' → size (rounded m k) (e + k) ≤ size m' e') := by
  have hpos : 0 < 2 ^ (e + 1074).toNat := Nat.two_pow_pos _
  rcases le_or_gt (e + k) e' with hle | hlt
  · obtain ⟨j, rfl⟩ : ∃ j : Nat, e' = e + k + j := ⟨(e' - (e + k)).toNat, by omega⟩
    rw [size_shift m' (by omega), size_shift _ he, size_shift _ he]
    unfold size
    constructor
    · intro h
      exact Nat.mul_le_mul_right _ (Nat.mul_le_mul_right _
        (le_rounded (Nat.le_of_mul_le_mul_right h hpos)))
    · intro h
      exact Nat.mul_le_mul_right _ (Nat.mul_le_mul_right _
        (rounded_le (Nat.le_of_mul_le_mul_right h hpos)))
  · -- All digits are used, so the rounded number is larger.
    have hleast := hdigits.least
    obtain ⟨hshort, hfull⟩ := target_digits hm htarget
    have hfull := hfull.resolve_right (by omega)
    have hbelow := hdigits.size_lt_shift hlt (le_rounded hfull)
    refine ⟨fun _ => hbelow.le, fun h => absurd h (Nat.not_le.mpr ?_)⟩
    calc size m' e' < size (2 ^ 52) (e + k) := hdigits.size_lt_shift hlt le_rfl
      _ = size (2 ^ 52 * 2 ^ k) e := size_shift _ he k
      _ ≤ size m e := Nat.mul_le_mul_right _ hfull

end Rounding

theorem roundWithAccuracy_eq (s : Sign) (m : Nat) (e : Int) :
    roundWithAccuracy .binary64 s m e .exact =
      let k := (target m e - e).toNat
      let j := (target (rounded m k) (e + k) - (e + k)).toNat
      let n := ((⟨rounded m k, false, false⟩ : ExtendedMantissa) >>> j).mantissa
      if h : n = 0 then .zero s else .finite s n (e + k + j) (Nat.pos_of_ne_zero h) :=
  rfl

/-- A rounded number is written with its digits, also where rounding has added
one. -/
theorem roundWithAccuracy_written (s : Sign) {m k : Nat} {e : Int} (hm : 0 < m)
    (he : -1074 ≤ e) (htarget : target m e = e + k) :
    ∃ n d, ∃ hn : 0 < n, roundWithAccuracy .binary64 s m e .exact = .finite s n d hn ∧
      Written n d ∧ size n d = size (rounded m k) (e + k) := by
  have hk : (target m e - e).toNat = k := by omega
  have hfull := rounded_full hm htarget
  have hpos : 0 < rounded m k := by
    rcases hfull with hfull | hleast
    · exact lt_of_lt_of_le (Nat.two_pow_pos 52) hfull
    · obtain rfl : k = 0 := by omega
      exact le_rounded (by rwa [Nat.pow_zero, Nat.mul_one])
  rw [roundWithAccuracy_eq, hk]
  rcases Nat.lt_or_eq_of_le (rounded_short hm htarget) with hshort | hcarry
  · have hlog : (rounded m k).log2 < 53 := (Nat.log2_lt hpos.ne').mpr hshort
    have hj : (target (rounded m k) (e + k) - (e + k)).toNat = 0 := by
      rw [target_eq]
      omega
    refine ⟨rounded m k, e + k, hpos, ?_, ⟨by omega, hshort, hfull⟩, rfl⟩
    dsimp only
    rw [hj, dif_neg (by exact hpos.ne')]
    exact congrArg (fun d => UnpackedFloat.finite s _ d _) (Int.add_zero (e + k))
  · have hj : (target (rounded m k) (e + k) - (e + k)).toNat = 1 := by
      rw [hcarry, target_eq, Nat.log2_two_pow]
      omega
    refine ⟨2 ^ 52, e + k + (1 : Nat), Nat.two_pow_pos 52, ?_,
      ⟨by omega, by decide, Or.inl le_rfl⟩, ?_⟩
    · dsimp only
      rw [hj, hcarry]
      rfl
    · rw [hcarry]
      exact size_shift (2 ^ 52) (by omega) 1

/-- **Rounding a number** does not cross a double. -/
theorem round_written (s : Sign) {m : Nat} {e : Int} (hm : 0 < m) (he : -1074 ≤ e) :
    ∃ n d, ∃ hn : 0 < n, UnpackedFloat.round .binary64 s m e = .finite s n d hn ∧ Written n d ∧
      ∀ {m' : Nat} {e' : Int}, Written m' e' →
        (size m' e' ≤ size m e → size m' e' ≤ size n d) ∧
          (size m e ≤ size m' e' → size n d ≤ size m' e') := by
  obtain ⟨j, hj⟩ : ∃ j, j = (e - target m e).toNat := ⟨_, rfl⟩
  have hleast : -1074 ≤ target m e := by
    rw [target_eq]
    omega
  have hround : UnpackedFloat.round .binary64 s m e =
      roundWithAccuracy .binary64 s (m * 2 ^ j) (e - j) .exact := by
    rw [hj, ← Nat.shiftLeft_eq]
    rfl
  have htarget : target (m * 2 ^ j) (e - j) = target m e := by
    rw [target_eq, target_eq, log2_mul_two_pow hm.ne']
    omega
  obtain ⟨k, hk⟩ : ∃ k : Nat, target m e = e - j + k := ⟨(target m e - (e - j)).toNat, by omega⟩
  rw [hk] at htarget
  have hm' : 0 < m * 2 ^ j := Nat.mul_pos hm (Nat.two_pow_pos j)
  have he' : -1074 ≤ e - j := by omega
  have hsize : size (m * 2 ^ j) (e - j) = size m e := by
    rw [← size_shift m he' j, Int.sub_add_cancel]
  obtain ⟨n, d, hn, hresult, hwritten, hnearest⟩ := roundWithAccuracy_written s hm' he' htarget
  refine ⟨n, d, hn, hround.trans hresult, hwritten, fun hdigits => ?_⟩
  rw [hnearest, ← hsize]
  exact rounded_between hm' htarget he' hdigits

/-! ### Packing -/

/-- A number that is too large is packed as an infinity. -/
theorem unpack_pack_beyond (s : Sign) {m : Nat} {e : Int} (hm : 0 < m) (he : 971 < e) :
    (Float.Model.pack (.finite s m e hm)).unpack = .infinity s := by
  have hbias : Format.binary64.exponentBias = 1023 := rfl
  have hpack : UnpackedFloat.pack .binary64 (.finite s m e hm) = packedInfinity .binary64 s := by
    unfold UnpackedFloat.pack
    dsimp only
    rw [if_pos]
    rw [hbias]
    show 2 ^ 11 ≤ (e + (1023 : Nat) + (52 : Nat)).toNat + 1
    omega
  show UnpackedFloat.unpack .binary64 (UnpackedFloat.pack .binary64 (.finite s m e hm)) = _
  rw [hpack]
  cases s <;> rfl

/-- Digits with a leading one. -/
theorem toNat_leading {m : Nat} (hfull : 2 ^ 52 ≤ m) (hshort : m < 2 ^ 53) :
    (1#1 ++ BitVec.ofNat 52 m).toNat = m := by
  rw [BitVec.toNat_append, ← Nat.shiftLeft_add_eq_or_of_lt (BitVec.ofNat 52 m).isLt,
    BitVec.toNat_ofNat]
  show 2 ^ 52 + m % 2 ^ 52 = m
  omega

/-- Bits of a subnormal double. -/
theorem unpack_subnormal {bits : BitVec Format.binary64.numBits} {m : Nat} (hm : 0 < m)
    (hexponent : unpackExponent bits = 0#11) (hmantissa : (unpackMantissa bits).toNat = m) :
    UnpackedFloat.unpack .binary64 bits =
      .finite (.ofBitVec (unpackSign bits)) m (-1074) hm := by
  subst hmantissa
  have hzero : unpackMantissa bits ≠ 0#52 := by
    intro hzero
    rw [hzero] at hm
    exact absurd hm (by decide)
  unfold UnpackedFloat.unpack
  dsimp only
  rw [if_neg (by rw [hexponent]; decide), if_pos hexponent, dif_neg hzero, hexponent]
  rfl

/-- Bits of a double with a leading digit that is not written. -/
theorem unpack_leading {bits : BitVec Format.binary64.numBits} {m : Nat} (hm : 0 < m)
    (hzero : unpackExponent bits ≠ 0#11) (hinfinite : unpackExponent bits ≠ -1#11)
    (hmantissa : (1#1 ++ unpackMantissa bits).toNat = m) :
    UnpackedFloat.unpack .binary64 bits =
      .finite (.ofBitVec (unpackSign bits)) m ((unpackExponent bits).toNat - 1075) hm := by
  subst hmantissa
  unfold UnpackedFloat.unpack
  dsimp only
  rw [if_neg hinfinite, if_neg hzero]
  rfl

/-- **Packing keeps the digits of a double.** -/
theorem unpack_pack_finite (s : Sign) {m : Nat} {e : Int} (hm : 0 < m) (h : Digits m e) :
    (Float.Model.pack (.finite s m e hm)).unpack = .finite s m e hm := by
  have hbias : Format.binary64.exponentBias = 1023 := rfl
  have hbits : Format.binary64.mantissaBits = 53 := rfl
  obtain ⟨⟨hleast, hshort, hfull⟩, hgreatest⟩ := h
  obtain ⟨b, hb⟩ : ∃ b : Nat, (e + (1023 : Nat) + (52 : Nat)).toNat = b := ⟨_, rfl⟩
  have hpack : UnpackedFloat.pack .binary64 (.finite s m e hm) =
      if m.log2 + 1 = 53 then packComponents .binary64 s (BitVec.ofNat 11 b) (BitVec.ofNat 52 m)
      else packComponents .binary64 s 0#11 (BitVec.ofNat 52 m) := by
    unfold UnpackedFloat.pack
    dsimp only
    rw [hbias, hb, hbits, if_neg (show ¬ 2 ^ 11 ≤ b + 1 by omega)]
  show UnpackedFloat.unpack .binary64 (UnpackedFloat.pack .binary64 (.finite s m e hm)) = _
  rw [hpack]
  rcases Nat.lt_or_ge m (2 ^ 52) with hsmall | hlarge
  · -- A subnormal double.
    obtain rfl : e = -1074 := hfull.resolve_left (Nat.not_le.mpr hsmall)
    have hlog : m.log2 < 52 := (Nat.log2_lt hm.ne').mpr hsmall
    rw [if_neg (show ¬ m.log2 + 1 = 53 by omega)]
    have hdigits : (unpackMantissa
        (packComponents .binary64 s 0#11 (BitVec.ofNat 52 m))).toNat = m := by
      rw [unpackMantissa_packComponents, BitVec.toNat_ofNat, Nat.mod_eq_of_lt hsmall]
    exact (unpack_subnormal hm unpackExponent_packComponents hdigits).trans
      (by rw [sign_packComponents])
  · have hlog : m.log2 = 52 := (Nat.log2_eq_iff hm.ne').mpr ⟨hlarge, hshort⟩
    have hexponent : (BitVec.ofNat 11 b).toNat = b := by
      rw [BitVec.toNat_ofNat]
      exact Nat.mod_eq_of_lt (by omega)
    have hinfinite : BitVec.ofNat 11 b ≠ -1#11 := by
      intro heq
      rw [heq] at hexponent
      change 2047 = b at hexponent
      omega
    have hzero : BitVec.ofNat 11 b ≠ 0#11 := by
      intro heq
      rw [heq] at hexponent
      change 0 = b at hexponent
      omega
    rw [if_pos (show m.log2 + 1 = 53 by omega)]
    let bits := packComponents .binary64 s (BitVec.ofNat 11 b) (BitVec.ofNat 52 m)
    have hpacked : unpackExponent bits = BitVec.ofNat 11 b := unpackExponent_packComponents
    have hdigits : (1#1 ++ unpackMantissa bits).toNat = m := by
      rw [unpackMantissa_packComponents]
      exact toNat_leading hlarge hshort
    have hplace : ((unpackExponent bits).toNat : Int) - 1075 = e := by
      rw [hpacked, hexponent]
      omega
    refine (unpack_leading hm (hpacked ▸ hzero) (hpacked ▸ hinfinite) hdigits).trans ?_
    rw [sign_packComponents, hplace]

/-- The exponent of a double is not too large. -/
theorem unpack_exponent_le {bits : BitVec Format.binary64.numBits} {s : Sign} {m : Nat} {e : Int}
    {hm : 0 < m} (h : UnpackedFloat.unpack .binary64 bits = .finite s m e hm) : e ≤ 971 := by
  have hexponent : (unpackExponent bits).toNat < 2048 := (unpackExponent bits).isLt
  rcases unpack_finite_cases h with ⟨-, rfl⟩ | ⟨-, hbelow, -, rfl⟩
  · decide
  · have hne : (unpackExponent bits).toNat ≠ 2047 := fun heq =>
      hbelow (BitVec.eq_of_toNat_eq (by rw [heq]; rfl))
    omega

/-- What a double is unpacked to. -/
def Regular : UnpackedFloat → Prop
  | .finite _ m e _ => Digits m e
  | _ => True

theorem unpack_regular (x : Float.Model) : Regular x.unpack := by
  cases hx : x.unpack with
  | finite s m e hm =>
      obtain ⟨he, hlog, hfull⟩ := unpack_finite hx
      refine ⟨⟨he, (Nat.log2_lt hm.ne').mp (by omega), ?_⟩, unpack_exponent_le hx⟩
      exact hfull.imp_left fun h => (Nat.le_log2 hm.ne').mp h.ge
  | _ => trivial

/-- **Packing** what a double can be unpacked to. -/
theorem unpack_pack {z : UnpackedFloat} (h : Regular z) : (Float.Model.pack z).unpack = z := by
  cases z with
  | notANumber => rfl
  | infinity s => cases s <;> rfl
  | zero s => cases s <;> rfl
  | finite s m e hm => exact unpack_pack_finite s hm h

end SignalNet.Double
