import EventRules.Number.DecimalOfFloat
import EventRules.Proofs.Number.Rounding

/-!
# Whole numbers as floats

A whole number is converted to a float by one rounding to 53 binary places: what the float stands for is
the nearest number of that precision, and the number itself if it has no more places. Reading such a
float as a decimal is exact again, so long as the decimal has room for it.
-/

namespace EventRules.Number
set_option autoImplicit false

open Float.Model Float.Model.UnpackedFloat

/-! ### Conversion -/

/-- The float 1. -/
def NormalFloat.one : NormalFloat := ⟨.positive, 2 ^ 52, -52, by decide, by decide, by decide, by decide⟩

theorem NormalFloat.mul_one_toFloat (x : NormalFloat) (hlow : -1022 ≤ x.exponent) (hhigh : x.exponent ≤ 917) :
    ∃ z : NormalFloat, x.toFloat * one.toFloat = z.toFloat ∧ z.sign = x.sign * .positive ∧
      z.HasSize x.mantissa x.exponent := by
  obtain ⟨z, hz, hsign, hsize⟩ := mul_toFloat x one
    (by change -1074 ≤ x.exponent + -52; omega) (by change x.exponent + -52 ≤ 917; omega)
  change z.HasSize (nearestPrecise (x.mantissa * 2 ^ 52)) (x.exponent + -52) at hsize
  rw [nearest_of_precise ⟨x.mantissa, 52, x.high, rfl⟩] at hsize
  have hshifted := hsize.of_shifted
  rw [Int.add_assoc] at hshifted
  exact ⟨z, hz, hsign, by simpa using hshifted⟩

/-- A small whole number, brought to full precision by zeros. -/
theorem small_toFloat {n : Nat} (hn : 0 < n) (hsmall : n < 2 ^ 53) : ∃ x : NormalFloat,
    n.toUInt64.toFloat = x.toFloat ∧ x.sign = .positive ∧ x.HasSize n 0 := by
  have hlog : n.log2 ≤ 52 := Nat.le_of_lt_succ ((Nat.log2_lt (by omega)).mpr hsmall)
  have hword : n.toUInt64.toNat = n := by
    change n % 2 ^ 64 = n
    omega
  have hpositive : compare ((n : Nat) : Int) 0 = .gt := Int.compare_eq_gt.mpr (by omega)
  have htarget : (0 - Format.binary64.targetExponent (totalExponent n 0)).toNat = 52 - n.log2 := by
    change (0 - max ((n.log2 : Int) + 1 + 0 - 53) (-1074)).toNat = _
    omega
  have hfull : (n * 2 ^ (52 - n.log2)).log2 = 52 := by
    rw [log_mul_two_pow (by omega)]
    omega
  have hleast : 2 ^ 52 ≤ n * 2 ^ (52 - n.log2) := by
    have hpos : 0 < n * 2 ^ (52 - n.log2) := Nat.mul_pos hn (Nat.two_pow_pos _)
    exact (Nat.le_log2 hpos.ne').mp hfull.ge
  obtain ⟨x, hround, hsign, hsize⟩ := round_normal .positive (e := 0 - ((52 - n.log2 : Nat) : Int)) hleast
    (by omega) (by omega)
  rw [nearest_of_precise ⟨n, _, hsmall, rfl⟩] at hsize
  refine ⟨x, ?_, hsign, by simpa using hsize.of_shifted⟩
  -- the zeros come first, so that the rounding finds nothing to cut off
  change (⟨.pack (Float.Model.UnpackedFloat.normalize .binary64 (n.toUInt64.toNat : Int) 0 .positive)⟩ :
    Float) = _
  rw [hword, Float.Model.UnpackedFloat.normalize, hpositive]
  simp only [Float.Model.UnpackedFloat.round, decreaseExponent, Int.toNat_natCast, htarget,
    Nat.shiftLeft_eq]
  rw [hround]
  rfl

/-- A large whole number, brought to full precision by rounding. -/
theorem large_toFloat {n : Nat} (hlarge : 2 ^ 53 ≤ n) (hbound : n.log2 ≤ 1021) : ∃ x : NormalFloat,
    (⟨Float.Model.ofScientific n 0⟩ : Float) = x.toFloat ∧ x.sign = .positive ∧
      x.HasSize (nearestPrecise n) 0 := by
  have hplaces : (n * 2 ^ 53 * 10 ^ 0).log2 = n.log2 + 53 := by
    rw [Nat.pow_zero, Nat.mul_one, log_mul_two_pow (by omega)]
  obtain ⟨x, hround, hsign, hsize⟩ := round_normal .positive (m := n * 2 ^ 53 * 10 ^ 0) (e := -53 + 0)
    (by omega) (by omega) (by omega)
  rw [Nat.pow_zero, Nat.mul_one, nearest_mul_two_pow] at hsize
  refine ⟨x, ?_, hsign, by simpa using hsize.of_shifted⟩
  have hroom : ¬(0 : Int) < -((2 : Int) ^ Format.binary64.exponentBits + n.log2) := by
    change ¬(0 : Int) < -(2048 + n.log2)
    omega
  have hscaled : Float.Model.UnpackedFloat.ofScientific .binary64 n 0 =
      roundWithAccuracy .binary64 .positive (n <<< 53 * 10 ^ 0) (-53 + 0) .exact := by
    rw [Float.Model.UnpackedFloat.ofScientific, dif_neg (by omega), if_neg (by decide), if_neg hroom,
      if_pos (by decide)]
    rfl
  change (⟨.pack (Float.Model.UnpackedFloat.ofScientific .binary64 n 0)⟩ : Float) = ⟨.pack x.unpacked⟩
  rw [hscaled, Nat.shiftLeft_eq, hround]

/-- The float of a whole number is the nearest number of full precision. -/
theorem ofNat_toFloat {n : Nat} (hn : 0 < n) (hbound : n.log2 ≤ 1021) : ∃ x : NormalFloat,
    Float.ofNat n = x.toFloat ∧ x.sign = .positive ∧ x.HasSize (nearestPrecise n) 0 := by
  change ∃ x : NormalFloat, Float.ofScientific n false 0 = _ ∧ _
  by_cases hsmall : n < 2 ^ 53
  -- a small number is converted as a machine word and then multiplied by the power 10 ^ 0
  · obtain ⟨x, hx, hsign, hsize⟩ := small_toFloat hn hsmall
    have hlow := hsize.exponent_ge (l := 0) hn
    have hhigh := hsize.exponent_le (l := 52) hsmall
    obtain ⟨z, hz, hzsign, hzsize⟩ := x.mul_one_toFloat (by omega) (by omega)
    rw [nearest_of_small hsmall, Float.ofScientific, dif_pos ⟨hsmall, by decide⟩]
    refine ⟨z, ?_, by rw [hzsign, hsign]; rfl, hsize.same hzsize⟩
    rw [← hz, ← hx]
    rfl
  · rw [Float.ofScientific, dif_neg (fun h => hsmall h.1)]
    exact large_toFloat (by omega) hbound

theorem ofInt_toFloat {n : Int} (hn : n ≠ 0) (hbound : n.natAbs.log2 ≤ 1021) : ∃ x : NormalFloat,
    Float.ofInt n = x.toFloat ∧ (x.sign == .negative) = decide (n < 0) ∧
      x.HasSize (nearestPrecise n.natAbs) 0 := by
  obtain ⟨x, hx, hsign, hsize⟩ := ofNat_toFloat (n := n.natAbs) (by omega) hbound
  cases n with
  | ofNat k =>
    refine ⟨x, hx, ?_, hsize⟩
    rw [hsign]
    simp
    rfl
  | negSucc k =>
    refine ⟨{ x with sign := -x.sign }, ?_, ?_, hsize⟩
    · rw [← x.neg_toFloat, ← hx]
      rfl
    · rw [hsign]
      simp
      rfl

theorem isFinite_ofInt {n : Int} (hbound : n.natAbs.log2 ≤ 1021) : (Float.ofInt n).isFinite = true := by
  by_cases hn : n = 0
  · subst hn
    decide +kernel
  · obtain ⟨x, hx, -⟩ := ofInt_toFloat hn hbound
    rw [hx, x.isFinite_toFloat]

theorem log_of_int64 (n : Int64) : n.toInt.natAbs.log2 ≤ 63 := by
  have hlow := Int64.le_toInt n
  have hhigh := Int64.toInt_lt n
  by_cases hn : n.toInt.natAbs = 0
  · rw [hn]
    decide
  · exact Nat.le_of_lt_succ ((Nat.log2_lt hn).mpr (by omega))

/-! ### The decimals of these floats -/

namespace Decimal

theorem timesFive_two_pow (v f : Nat) (t : Int) :
    Scaling.timesFive ⟨v * 2 ^ f, t⟩ f = ⟨v, t + f⟩ := by
  induction f generalizing t with
  | zero => simp [Scaling.timesFive]
  | succ f ih =>
    have heven : v * 2 ^ (f + 1) % 2 = 0 := by
      rw [Nat.pow_succ, ← Nat.mul_assoc, Nat.mul_mod_left]
    have hhalf : v * 2 ^ (f + 1) / 2 = v * 2 ^ f := by
      rw [Nat.pow_succ, ← Nat.mul_assoc, Nat.mul_div_cancel _ (by decide)]
    rw [Scaling.timesFive, if_pos heven, hhalf, ih]
    congr 1
    push_cast
    ring

theorem overFive_eq {m : Nat} (f : Nat) (hm : m < 2 ^ 96) :
    Scaling.overFive? ⟨m, f⟩ f = if m * 2 ^ f < 2 ^ 96 then some ⟨m * 2 ^ f, 0⟩ else none := by
  induction f generalizing m with
  | zero => rw [Nat.pow_zero, Nat.mul_one, if_pos hm]; rfl
  | succ f ih =>
    change (if m < 2 ^ 95 then Scaling.overFive? ⟨2 * m, ((f + 1 : Nat) : Int) - 1⟩ f
      else if 2 * ((f + 1 : Nat) : Int) > f + 1 then none
      else Scaling.overFive? ⟨m / 5, ((f + 1 : Nat) : Int)⟩ f) = _
    by_cases hroom : m < 2 ^ 95
    · have hdouble : 2 * m * 2 ^ f = m * 2 ^ (f + 1) := by
        rw [Nat.pow_succ, Nat.mul_comm 2 m, Nat.mul_assoc, Nat.mul_comm 2]
      have hten : ((f + 1 : Nat) : Int) - 1 = f := by omega
      rw [if_pos hroom, hten, ih (by omega), hdouble]
    · have hbeyond : ¬m * 2 ^ (f + 1) < 2 ^ 96 := by
        have hpos : 1 ≤ 2 ^ f := Nat.two_pow_pos f
        have hleast : 2 ^ 95 * 1 ≤ m * 2 ^ f := Nat.mul_le_mul (by omega) hpos
        rw [Nat.pow_succ, ← Nat.mul_assoc]
        omega
      rw [if_neg hroom, if_pos (by omega), if_neg hbeyond]

theorem ofMagnitude_size {x : NormalFloat} {v : Nat} (h : x.HasSize v 0) :
    ofMagnitude? x.mantissa x.exponent = if v < 2 ^ 96 then some ((v : Int), 0) else none := by
  obtain ⟨k, p, hexponent, hsize⟩ := h
  have hhigh := x.high
  by_cases hneg : x.exponent < 0
  · obtain ⟨j, rfl⟩ : ∃ j, p = j + k := ⟨p - k, by omega⟩
    have hmantissa : x.mantissa = v * 2 ^ j := by
      rw [Nat.pow_add, ← Nat.mul_assoc] at hsize
      exact Nat.eq_of_mul_eq_mul_right (Nat.two_pow_pos k) hsize
    have hv : v ≤ x.mantissa := by
      rw [hmantissa]
      exact Nat.le_mul_of_pos_right v (Nat.two_pow_pos j)
    have hplaces : (-x.exponent).toNat = j := by omega
    have hten : x.exponent + j = 0 := by omega
    simp only [ofMagnitude?, if_pos hneg, hplaces]
    rw [hmantissa, if_pos (by omega)]
    simp [timesFive_two_pow, hten, Scaling.expand?]
  · obtain ⟨j, rfl⟩ : ∃ j, k = j + p := ⟨k - p, by omega⟩
    have hvalue : x.mantissa * 2 ^ j = v := by
      rw [Nat.pow_add, ← Nat.mul_assoc] at hsize
      exact Nat.eq_of_mul_eq_mul_right (Nat.two_pow_pos p) hsize
    have hplaces : x.exponent = (j : Int) := by omega
    simp only [ofMagnitude?, if_neg hneg]
    rw [hplaces, Int.toNat_natCast, overFive_eq j (by omega), hvalue]
    split <;> simp [Scaling.expand?]

theorem ofFloat_size {x : NormalFloat} {v : Nat} (h : x.HasSize v 0) :
    ofFloat? x.toFloat = make? (if x.sign == .negative then -(v : Int) else v) 0 := by
  have hpos := x.mantissa_pos
  simp only [ofFloat?, x.ofFloat_toFloat, Option.bind_eq_bind, Option.bind_some,
    ofMagnitude_size h]
  rw [if_neg (by omega)]
  by_cases hv : v < 2 ^ 96
  · rw [if_pos hv]
    rfl
  · have hbeyond : ¬(if x.sign == .negative then -(v : Int) else v).natAbs < Nat.pow 2 96 := by
      split <;> simpa using hv
    rw [if_neg hv, make?, dif_neg (fun h => hbeyond h.1)]
    rfl

theorem ofFloat_ofInt {n : Int} (hbound : n.natAbs.log2 ≤ 1021) :
    ofFloat? (Float.ofInt n) = make? (nearestInteger n) 0 := by
  by_cases hn : n = 0
  · subst hn
    have hzero : Binary.ofFloat? (Float.ofInt 0) = some ⟨false, 0, -1074⟩ := by decide +kernel
    rw [ofFloat?, hzero]
    rfl
  · obtain ⟨x, hx, hsign, hsize⟩ := ofInt_toFloat hn hbound
    rw [hx, ofFloat_size hsize, hsign, nearestInteger]
    simp

end Decimal

end EventRules.Number
