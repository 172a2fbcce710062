import Mathlib
import EventRules.Number.Binary
import EventRules.Proofs.Number.Precision

/-!
# Rounding to floats

A float of full precision has a mantissa of 53 binary places. A number with more places is rounded to one
of these by cutting off the places beyond and looking at what is cut off; so a product of two floats is
the exact product, rounded once, a half going to the even neighbour. Bits of a float and its sign,
mantissa and exponent say the same.
-/

namespace EventRules.Number
set_option autoImplicit false

open Float.Model Float.Model.UnpackedFloat

/-! ### Places cut off -/

/-- What is left of a mantissa without its last `k` places. -/
def shifted (m k : Nat) : ExtendedMantissa where
  mantissa := m / 2 ^ k
  roundBit := decide (2 ^ k ≤ 2 * (m % 2 ^ k))
  stickyBit := decide (2 * (m % 2 ^ k) ≠ 0 ∧ 2 * (m % 2 ^ k) ≠ 2 ^ k)

theorem shiftRight_shifted (m k : Nat) : (shifted m k).shiftRightOne = shifted m (k + 1) := by
  have hpos : 0 < 2 ^ k := Nat.two_pow_pos k
  have hrest : m % 2 ^ k < 2 ^ k := Nat.mod_lt m hpos
  have hnext : m % 2 ^ (k + 1) = m % 2 ^ k + 2 ^ k * (m / 2 ^ k % 2) := by
    rw [Nat.pow_succ, Nat.mod_mul]
  have htwice : 2 ^ (k + 1) = 2 * 2 ^ k := by
    rw [Nat.pow_succ, Nat.mul_comm]
  have hbit : m / 2 ^ k % 2 = 0 ∨ m / 2 ^ k % 2 = 1 := Nat.mod_two_eq_zero_or_one _
  unfold ExtendedMantissa.shiftRightOne shifted
  rw [hnext, htwice]
  congr 1
  · rw [Nat.div_div_eq_div_mul, Nat.mul_comm]
  · rcases hbit with hbit | hbit
    · simpa [hbit] using hrest
    · simp [hbit]
  · rw [Bool.eq_iff_iff]
    rcases hbit with hbit | hbit <;>
      simp only [hbit, Bool.or_eq_true, decide_eq_true_eq] <;> omega

theorem shiftRight_eq (m k : Nat) :
    ExtendedMantissa.ofMantissaAndAccuracy m .exact >>> k = shifted m k := by
  change Nat.repeat ExtendedMantissa.shiftRightOne k _ = _
  induction k with
  | zero => simp [Nat.repeat, shifted, ExtendedMantissa.ofMantissaAndAccuracy, Nat.mod_one]
  | succ k ih => rw [Nat.repeat, ih, shiftRight_shifted]

theorem rounded_shifted (m k : Nat) : (shifted m k).roundedMantissa = divHalfEven m (2 ^ k) := by
  have hpos : 0 < 2 ^ k := Nat.two_pow_pos k
  unfold divHalfEven shifted
  dsimp only
  rcases Nat.lt_trichotomy (2 * (m % 2 ^ k)) (2 ^ k) with hless | heven | hmore
  · have hround : decide (2 ^ k ≤ 2 * (m % 2 ^ k)) = false := by simpa using hless
    rw [if_pos hless, hround]
    cases decide (2 * (m % 2 ^ k) ≠ 0 ∧ 2 * (m % 2 ^ k) ≠ 2 ^ k) <;> rfl
  · have hround : decide (2 ^ k ≤ 2 * (m % 2 ^ k)) = true := by simp [heven]
    have hsticky : decide (2 * (m % 2 ^ k) ≠ 0 ∧ 2 * (m % 2 ^ k) ≠ 2 ^ k) = false := by simp [heven]
    rw [if_neg (by omega), if_neg (by omega), hround, hsticky]
    change m / 2 ^ k + m / 2 ^ k % 2 = _
    split <;> omega
  · have hround : decide (2 ^ k ≤ 2 * (m % 2 ^ k)) = true := by simpa using hmore.le
    have hsticky : decide (2 * (m % 2 ^ k) ≠ 0 ∧ 2 * (m % 2 ^ k) ≠ 2 ^ k) = true := by
      rw [decide_eq_true_iff]
      omega
    rw [if_neg (by omega), if_pos hmore, hround, hsticky]
    rfl

/-! ### Normal floats -/

/-- A float of full precision: ± mantissa · 2 ^ exponent. -/
structure NormalFloat where
  sign : Sign
  mantissa : Nat
  exponent : Int
  low : 2 ^ 52 ≤ mantissa
  high : mantissa < 2 ^ 53
  exponent_low : -1074 ≤ exponent
  exponent_high : exponent ≤ 971

namespace NormalFloat

theorem mantissa_pos (x : NormalFloat) : 0 < x.mantissa := Nat.lt_of_lt_of_le (by decide) x.low

def unpacked (x : NormalFloat) : Float.Model.UnpackedFloat :=
  .finite x.sign x.mantissa x.exponent x.mantissa_pos

def toFloat (x : NormalFloat) : Float := ⟨.pack x.unpacked⟩

theorem log_mantissa (x : NormalFloat) : x.mantissa.log2 = 52 :=
  (Nat.log2_eq_iff x.mantissa_pos.ne').mpr ⟨x.low, x.high⟩

theorem packed (x : NormalFloat) : Float.Model.UnpackedFloat.pack .binary64 x.unpacked =
    packComponents .binary64 x.sign (BitVec.ofNat 11 (x.exponent + 1075).toNat)
      (BitVec.ofNat 52 x.mantissa) := by
  have hlow := x.exponent_low
  have hhigh := x.exponent_high
  have hbiased : (x.exponent + Format.binary64.exponentBias +
      Format.binary64.mantissaBitsWithoutImplicit).toNat = (x.exponent + 1075).toNat := by
    change (x.exponent + 1023 + 52).toNat = _
    omega
  have hroom : ¬2 ^ 11 ≤ (x.exponent + 1075).toNat + 1 := by omega
  have hfull : x.mantissa.log2 + 1 = Format.binary64.mantissaBits := by
    rw [x.log_mantissa]
    rfl
  simp only [unpacked, Float.Model.UnpackedFloat.pack, hbiased, hfull, if_true]
  exact if_neg hroom

theorem biased_exponent (x : NormalFloat) :
    (BitVec.ofNat 11 (x.exponent + 1075).toNat).toNat = (x.exponent + 1075).toNat := by
  have hlow := x.exponent_low
  have hhigh := x.exponent_high
  rw [BitVec.toNat_ofNat]
  exact Nat.mod_eq_of_lt (by omega)

/-- The first bit of the mantissa is not written. -/
theorem append_first_bit (x : NormalFloat) : (1#1 ++ BitVec.ofNat 52 x.mantissa).toNat = x.mantissa := by
  have hlow := x.low
  have hhigh := x.high
  rw [BitVec.toNat_append, ← Nat.shiftLeft_add_eq_or_of_lt (BitVec.isLt _), BitVec.toNat_ofNat,
    Nat.shiftLeft_eq]
  change 1 * 2 ^ 52 + x.mantissa % 2 ^ 52 = x.mantissa
  omega

theorem unpack_toFloat (x : NormalFloat) : x.toFloat.toModel.unpack = x.unpacked := by
  have hlow := x.exponent_low
  have hhigh := x.exponent_high
  have hbiased := x.biased_exponent
  have hfinite : BitVec.ofNat 11 (x.exponent + 1075).toNat ≠ -1#11 := by
    intro heq
    rw [heq] at hbiased
    change 2047 = _ at hbiased
    omega
  have hnormal : BitVec.ofNat 11 (x.exponent + 1075).toNat ≠ 0#11 := by
    intro heq
    rw [heq] at hbiased
    change 0 = _ at hbiased
    omega
  change Float.Model.UnpackedFloat.unpack .binary64 (Float.Model.UnpackedFloat.pack .binary64 x.unpacked) = _
  rw [x.packed]
  simp only [Float.Model.UnpackedFloat.unpack, unpackMantissa_packComponents,
    unpackExponent_packComponents, unpackSign_packComponents, Sign.ofBitVec_toBitVec, if_neg hfinite,
    if_neg hnormal, hbiased, x.append_first_bit, unpacked]
  congr 1
  change (((x.exponent + 1075).toNat : Nat) : Int) - (1023 + 52) = x.exponent
  omega

theorem toBits_toFloat (x : NormalFloat) : x.toFloat.toBits.toNat =
    ((if x.sign == .negative then 2 ^ 11 else 0) + (x.exponent + 1075).toNat) * 2 ^ 52 +
      (x.mantissa - 2 ^ 52) := by
  have hhigh := x.high
  have hlow := x.low
  have hbiased := x.biased_exponent
  change (Float.Model.UnpackedFloat.pack .binary64 x.unpacked).toNat = _
  rw [x.packed, packComponents, BitVec.toNat_append, ← Nat.shiftLeft_add_eq_or_of_lt (BitVec.isLt _),
    BitVec.toNat_append, ← Nat.shiftLeft_add_eq_or_of_lt (BitVec.isLt _), hbiased,
    Nat.shiftLeft_eq, Nat.shiftLeft_eq]
  have hsign : x.sign.toBitVec.toNat * 2 ^ 11 = if x.sign == .negative then 2 ^ 11 else 0 := by
    cases x.sign <;> rfl
  have hmantissa : x.mantissa % 2 ^ 52 = x.mantissa - 2 ^ 52 := by omega
  change (x.sign.toBitVec.toNat * 2 ^ 11 + _) * 2 ^ 52 + x.mantissa % 2 ^ 52 = _
  rw [hsign, hmantissa]

theorem ofFloat_toFloat (x : NormalFloat) : Binary.ofFloat? x.toFloat =
    some ⟨x.sign == .negative, x.mantissa, x.exponent⟩ := by
  have hlow := x.low
  have hhigh := x.high
  have helow := x.exponent_low
  have hehigh := x.exponent_high
  have hfield : x.toFloat.toBits.toNat / 2 ^ 52 % 2 ^ 11 = (x.exponent + 1075).toNat := by
    rw [x.toBits_toFloat]
    split <;> omega
  have hfraction : x.toFloat.toBits.toNat % 2 ^ 52 = x.mantissa - 2 ^ 52 := by
    rw [x.toBits_toFloat]
    omega
  have hsign : (x.toFloat.toBits.toNat / 2 ^ 63 == 1) = (x.sign == .negative) := by
    rw [x.toBits_toFloat]
    cases hs : x.sign == Sign.negative with
    | false =>
      simp
      omega
    | true =>
      simp
      omega
  change (if x.toFloat.toBits.toNat / 2 ^ 52 % 2 ^ 11 = 2 ^ 11 - 1 then none
    else if x.toFloat.toBits.toNat / 2 ^ 52 % 2 ^ 11 = 0 then
      some ⟨x.toFloat.toBits.toNat / 2 ^ 63 == 1, x.toFloat.toBits.toNat % 2 ^ 52, -1074⟩
    else some ⟨x.toFloat.toBits.toNat / 2 ^ 63 == 1, 2 ^ 52 + x.toFloat.toBits.toNat % 2 ^ 52,
      ((x.toFloat.toBits.toNat / 2 ^ 52 % 2 ^ 11 : Nat) : Int) - 1075⟩ : Option Binary) = _
  have hmantissa : 2 ^ 52 + (x.mantissa - 2 ^ 52) = x.mantissa := by omega
  have hexponent : (((x.exponent + 1075).toNat : Nat) : Int) - 1075 = x.exponent := by omega
  rw [hfield, hfraction, if_neg (by omega), if_neg (by omega), hsign, hmantissa, hexponent]

theorem neg_toFloat (x : NormalFloat) : -x.toFloat = { x with sign := -x.sign }.toFloat := by
  change (⟨.pack (Float.Model.UnpackedFloat.neg x.toFloat.toModel.unpack)⟩ : Float) = _
  rw [x.unpack_toFloat]
  rfl

theorem isFinite_toFloat (x : NormalFloat) : x.toFloat.isFinite = true := by
  change Float.Model.UnpackedFloat.isFinite x.toFloat.toModel.unpack = true
  rw [x.unpack_toFloat]
  rfl

/-! ### The size of a float -/

/-- The size of the float is `v` · 2 ^ `e`. -/
def HasSize (x : NormalFloat) (v : Nat) (e : Int) : Prop :=
  ∃ k p : Nat, x.exponent + p = e + k ∧ x.mantissa * 2 ^ k = v * 2 ^ p

variable {x y : NormalFloat} {v l : Nat} {e : Int}

theorem HasSize.of_shifted {k : Nat} (h : x.HasSize (v * 2 ^ k) e) : x.HasSize v (e + k) := by
  obtain ⟨i, p, hexponent, hsize⟩ := h
  refine ⟨i, k + p, by push_cast; omega, ?_⟩
  rw [hsize, Nat.pow_add, Nat.mul_assoc]

theorem HasSize.same (h : x.HasSize v e) (hy : y.HasSize x.mantissa x.exponent) : y.HasSize v e := by
  obtain ⟨k, p, hexponent, hsize⟩ := h
  obtain ⟨i, q, hexponent', hsize'⟩ := hy
  refine ⟨k + i, p + q, by push_cast; omega, ?_⟩
  calc y.mantissa * 2 ^ (k + i) = y.mantissa * 2 ^ i * 2 ^ k := by ring
    _ = x.mantissa * 2 ^ k * 2 ^ q := by rw [hsize']; ring
    _ = v * 2 ^ (p + q) := by rw [hsize]; ring

theorem HasSize.exponent_ge (h : x.HasSize v e) (hv : 2 ^ l ≤ v) : e + l - 52 ≤ x.exponent := by
  obtain ⟨k, p, hexponent, hsize⟩ := h
  have hless : 2 ^ (l + p) < 2 ^ (53 + k) := by
    calc 2 ^ (l + p) = 2 ^ l * 2 ^ p := Nat.pow_add 2 l p
      _ ≤ v * 2 ^ p := Nat.mul_le_mul_right _ hv
      _ = x.mantissa * 2 ^ k := hsize.symm
      _ < 2 ^ 53 * 2 ^ k := Nat.mul_lt_mul_of_pos_right x.high (Nat.two_pow_pos k)
      _ = 2 ^ (53 + k) := (Nat.pow_add 2 53 k).symm
  have hplaces := (Nat.pow_lt_pow_iff_right (by decide)).mp hless
  omega

theorem HasSize.exponent_le (h : x.HasSize v e) (hv : v < 2 ^ (l + 1)) : x.exponent ≤ e + l - 52 := by
  obtain ⟨k, p, hexponent, hsize⟩ := h
  have hless : 2 ^ (52 + k) < 2 ^ (l + 1 + p) := by
    calc 2 ^ (52 + k) = 2 ^ 52 * 2 ^ k := Nat.pow_add 2 52 k
      _ ≤ x.mantissa * 2 ^ k := Nat.mul_le_mul_right _ x.low
      _ = v * 2 ^ p := hsize
      _ < 2 ^ (l + 1) * 2 ^ p := Nat.mul_lt_mul_of_pos_right hv (Nat.two_pow_pos p)
      _ = 2 ^ (l + 1 + p) := (Nat.pow_add 2 (l + 1) p).symm
  have hplaces := (Nat.pow_lt_pow_iff_right (by decide)).mp hless
  omega

end NormalFloat

/-! ### Rounding -/

/-- A mantissa is brought to full precision by cutting off the places beyond. -/
theorem shift_to_target {m : Nat} {e : Int} (hm : 2 ^ 52 ≤ m) (hlow : -1074 ≤ e) :
    shiftToTargetExponent .binary64 m e .exact =
      (shifted m (m.log2 - 52), e + (m.log2 - 52 : Nat)) := by
  have hlog : 52 ≤ m.log2 := (Nat.le_log2 (by omega)).mpr hm
  have htarget : (Format.binary64.targetExponent (totalExponent m e) - e).toNat = m.log2 - 52 := by
    change (max ((m.log2 : Int) + 1 + e - 53) (-1074) - e).toNat = _
    omega
  simp only [shiftToTargetExponent, shiftToExponent, htarget, shiftRight_eq]

/-- A number with at least the places of a float is rounded to a normal float. -/
theorem round_normal (s : Sign) {m : Nat} {e : Int} (hm : 2 ^ 52 ≤ m) (hlow : -1074 ≤ e)
    (hhigh : e + m.log2 ≤ 1022) : ∃ x : NormalFloat,
      roundWithAccuracy .binary64 s m e .exact = x.unpacked ∧ x.sign = s ∧
      x.HasSize (nearestPrecise m) e := by
  have hlog : 52 ≤ m.log2 := (Nat.le_log2 (by omega)).mpr hm
  have hfirst := shift_to_target hm hlow
  unfold nearestPrecise
  generalize hk : m.log2 - 52 = k at hfirst ⊢
  obtain ⟨hleast, hbeyond⟩ := full_quotient (m := m) (k := k) (by omega)
  obtain ⟨hrest, hmost⟩ := divHalfEven_bounds m (2 ^ k)
  have hrounded := rounded_shifted m k
  generalize divHalfEven m (2 ^ k) = r at *
  -- rounding up may lead to one place more
  have hr : 2 ^ 52 ≤ r := by omega
  have hlogr : r.log2 = 52 ∨ r = 2 ^ 53 := by
    by_cases hfull : r = 2 ^ 53
    · exact .inr hfull
    · exact .inl ((Nat.log2_eq_iff (by omega)).mpr ⟨hr, by omega⟩)
  have hplace : r.log2 = 52 + (r.log2 - 52) ∧ r.log2 - 52 ≤ 1 ∧
      r / 2 ^ (r.log2 - 52) * 2 ^ (r.log2 - 52) = r := by
    rcases hlogr with hlogr | rfl
    · simp [hlogr]
    · rw [Nat.log2_two_pow]
      decide
  have hsecond := shift_to_target (m := r) (e := e + (k : Int)) hr (by omega)
  generalize r.log2 - 52 = j at hplace hsecond
  obtain ⟨hj, hj1, hexact⟩ := hplace
  obtain ⟨hleast', hbeyond'⟩ := full_quotient hj
  refine ⟨⟨s, r / 2 ^ j, e + k + j, hleast', hbeyond', by omega, by omega⟩, ?_, rfl, k + j, 0, ?_, ?_⟩
  · have hpos : (shifted r j).mantissa ≠ 0 := by
      change r / 2 ^ j ≠ 0
      omega
    simp only [roundWithAccuracy, hfirst, hrounded, hsecond, dif_neg hpos]
    rfl
  · push_cast
    omega
  · change r / 2 ^ j * 2 ^ (k + j) = r * 2 ^ k * 1
    rw [Nat.mul_one, Nat.pow_add, Nat.mul_comm (2 ^ k), ← Nat.mul_assoc, hexact]

/-- The product of two normal floats, which is rounded once. -/
theorem mul_toFloat (x y : NormalFloat) (hlow : -1074 ≤ x.exponent + y.exponent)
    (hhigh : x.exponent + y.exponent ≤ 917) : ∃ z : NormalFloat,
      x.toFloat * y.toFloat = z.toFloat ∧ z.sign = x.sign * y.sign ∧
      z.HasSize (nearestPrecise (x.mantissa * y.mantissa)) (x.exponent + y.exponent) := by
  have hx := x.low
  have hx' := x.high
  have hy := y.low
  have hy' := y.high
  have hleast : 2 ^ 52 * 2 ^ 52 ≤ x.mantissa * y.mantissa := Nat.mul_le_mul hx hy
  have hmost : x.mantissa * y.mantissa < 2 ^ 53 * 2 ^ 53 := Nat.mul_lt_mul'' hx' hy'
  have hlog : (x.mantissa * y.mantissa).log2 < 106 :=
    (Nat.log2_lt (by omega)).mpr (by omega)
  obtain ⟨z, hround, hsign, hsize⟩ := round_normal (x.sign * y.sign)
    (m := x.mantissa * y.mantissa) (e := x.exponent + y.exponent) (by omega) hlow (by omega)
  refine ⟨z, ?_, hsign, hsize⟩
  change (⟨.pack (Float.Model.UnpackedFloat.mul .binary64 x.toFloat.toModel.unpack
    y.toFloat.toModel.unpack)⟩ : Float) = ⟨.pack z.unpacked⟩
  rw [x.unpack_toFloat, y.unpack_toFloat, ← hround]
  rfl

end EventRules.Number
