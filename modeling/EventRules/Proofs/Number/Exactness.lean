import Mathlib.Algebra.Order.Field.Rat
import Mathlib.Data.Rat.Cast.Order
import Mathlib.Tactic.FieldSimp
import Mathlib.Tactic.Positivity
import EventRules.Number.Decimal

/-!
# Exact decimals

A decimal stands for a rational number, and decimals are in the order of these numbers. On whole numbers
a calculation is exact as long as the result has room.
-/

namespace EventRules.Number.Decimal
set_option autoImplicit false

/-! ### The order of decimals -/

/-- The number that a decimal stands for. -/
def toRat (d : Decimal) : ℚ := d.coefficient / 10 ^ d.scale

/-- A coefficient at more places. -/
theorem aligned_coefficient (d : Decimal) {s : Nat} (h : d.scale ≤ s) :
    ((d.coefficient * (Nat.pow 10 (s - d.scale) : Nat) : Int) : ℚ) = d.toRat * 10 ^ s := by
  have hsplit : (10 : ℚ) ^ s = 10 ^ (s - d.scale) * 10 ^ d.scale := by
    rw [← pow_add, Nat.sub_add_cancel h]
  change ((d.coefficient * ((10 ^ (s - d.scale) : Nat) : Int) : Int) : ℚ) = _
  rw [toRat, hsplit]
  push_cast
  field_simp

theorem compare_eq (a b : Decimal) : a.compare b = cmp a.toRat b.toRat := by
  have ha := a.aligned_coefficient (Nat.le_max_left a.scale b.scale)
  have hb := b.aligned_coefficient (Nat.le_max_right a.scale b.scale)
  have hpos : (0 : ℚ) < 10 ^ max a.scale b.scale := by positivity
  change Ord.compare _ _ = _
  rw [← cmp_eq_compare, ← cmp_mul_pos_right hpos a.toRat b.toRat, ← ha, ← hb]
  exact (Int.cast_strictMono.cmp_map_eq _ _).symm

/-! ### Whole numbers -/

theorem make_self (d : Decimal) : make? d.coefficient d.scale = some d :=
  dif_pos ⟨d.fits, d.scale_le⟩

theorem make_unscaled {d : Decimal} (h : d.scale = 0) : make? d.coefficient 0 = some d := by
  rw [← h, make_self]

theorem make_eq_some {c : Int} {s : Nat} {d : Decimal} (h : make? c s = some d) :
    d.coefficient = c ∧ d.scale = s := by
  unfold make? at h
  split at h
  · cases h
    exact ⟨rfl, rfl⟩
  · cases h

theorem nearest_unscaled (n : Int) {d : Nat} (hd : 0 < d) (h : d ∣ n.natAbs) :
    nearest? n d 0 = make? (n / d) 0 := by
  have hone : n.natAbs * Nat.pow 10 0 = n.natAbs := Nat.mul_one _
  have hsize : (if n < 0 then -((n.natAbs / d : Nat) : Int) else (n.natAbs / d : Nat)) = n / d := by
    obtain ⟨k, hk⟩ := h
    rw [hk, Nat.mul_div_cancel_left k hd]
    split
    · have hn : n = -(k : Int) * d := by
        rw [Int.neg_mul, ← Int.natCast_mul, Nat.mul_comm, ← hk]
        omega
      rw [hn, Int.mul_ediv_cancel _ (by omega)]
    · have hn : n = (k : Int) * d := by
        rw [← Int.natCast_mul, Nat.mul_comm, ← hk]
        omega
      rw [hn, Int.mul_ediv_cancel _ (by omega)]
  rw [nearest?, hone, divHalfEven_of_dvd hd h, hsize]
  cases make? (n / d) 0 with
  | none => rfl
  | some d => rfl

variable {a b : Decimal}

theorem add_unscaled (ha : a.scale = 0) (hb : b.scale = 0) :
    a.add? b = make? (a.coefficient + b.coefficient) 0 := by
  unfold add? isZero
  by_cases hzero : a.coefficient = 0
  · rw [if_pos (by simpa using hzero), hzero, Int.zero_add, make_unscaled hb]
  · by_cases hzero' : b.coefficient = 0
    · rw [if_neg (by simpa using hzero), if_pos (by simpa using hzero'), hzero', Int.add_zero,
        make_unscaled ha]
    · rw [if_neg (by simpa using hzero), if_neg (by simpa using hzero')]
      have hone : ((Nat.pow 10 0 : Nat) : Int) = 1 := rfl
      simp only [aligned, ha, hb, Nat.max_self, Nat.sub_self, hone, Int.mul_one]
      rw [nearest_unscaled _ (by decide) (Nat.one_dvd _)]
      simp

theorem sub_unscaled (ha : a.scale = 0) (hb : b.scale = 0) :
    a.sub? b = make? (a.coefficient - b.coefficient) 0 :=
  add_unscaled (b := b.neg) ha hb

theorem mul_unscaled (ha : a.scale = 0) (hb : b.scale = 0) :
    a.mul? b = make? (a.coefficient * b.coefficient) 0 := by
  rw [mul?, ha, hb]
  change nearest? (a.coefficient * b.coefficient) 1 0 = _
  rw [nearest_unscaled _ Nat.one_pos (Nat.one_dvd _), Int.natCast_one, Int.ediv_one]

theorem div_unscaled (ha : a.scale = 0) (hb : b.scale = 0) (hzero : b.coefficient ≠ 0)
    (hdvd : b.coefficient ∣ a.coefficient) :
    a.div? b = make? (a.coefficient / b.coefficient) 0 := by
  obtain ⟨q, hq⟩ := hdvd
  have hone : ((Nat.pow 10 0 : Nat) : Int) = 1 := rfl
  have hone' : Nat.pow 10 0 = 1 := rfl
  have hpos : 0 < b.coefficient.natAbs := Int.natAbs_pos.mpr hzero
  have hnum : (if b.coefficient < 0 then -a.coefficient else a.coefficient) = q * b.coefficient.natAbs := by
    rw [hq]
    split
    · rw [Int.ofNat_natAbs_of_nonpos (by omega), Int.mul_neg, Int.mul_comm q]
    · rw [Int.natAbs_of_nonneg (by omega), Int.mul_comm]
  have hsize : b.coefficient.natAbs ∣ (q * (b.coefficient.natAbs : Int)).natAbs := by
    rw [Int.natAbs_mul, Int.natAbs_natCast]
    exact Nat.dvd_mul_left _ _
  have hexact : (q * (b.coefficient.natAbs : Int)).natAbs % b.coefficient.natAbs = 0 :=
    Nat.mod_eq_zero_of_dvd hsize
  unfold div? isZero
  rw [if_neg (by simpa using hzero)]
  simp only [ha, hb, hone, hone', Int.mul_one, Nat.mul_one, Nat.sub_self, hnum, if_pos hexact]
  rw [nearest_unscaled _ hpos hsize, hq, Int.mul_ediv_cancel_left q hzero,
    Int.mul_ediv_cancel q (by omega)]

/-- A whole number is turned into a float at once. -/
theorem toFloat_unscaled {d : Decimal} (h : d.scale = 0) : d.toFloat = Float.ofInt d.coefficient := by
  have hone : Nat.pow 10 0 = 1 := rfl
  have hfraction : (Float.ofNat 0 / Float.ofNat 1 == 0) = true := by decide +kernel
  simp only [toFloat, h, hone, Nat.mod_one, Nat.div_one, hfraction, if_true]
  cases hc : d.coefficient with
  | ofNat n => rfl
  | negSucc n => rw [if_pos (Int.negSucc_lt_zero n)]; rfl

end EventRules.Number.Decimal
