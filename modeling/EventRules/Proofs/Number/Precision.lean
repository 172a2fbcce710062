import Mathlib.Tactic.Ring
import EventRules.Number.Decimal

/-!
# Numbers of 53 binary places

A float has room for 53 binary places. The nearest number of at most so many places, zeros at the end
apart, is what is left when the places beyond are rounded off; it is the number itself if it has none.
-/

namespace EventRules.Number
set_option autoImplicit false

/-! ### Places rounded off -/

theorem log_mul_two_pow {n : Nat} (hn : n ≠ 0) (k : Nat) : (n * 2 ^ k).log2 = n.log2 + k := by
  have hpos : 0 < 2 ^ k := Nat.two_pow_pos k
  refine (Nat.log2_eq_iff (Nat.mul_ne_zero hn hpos.ne')).mpr ⟨?_, ?_⟩
  · rw [Nat.pow_add]
    exact Nat.mul_le_mul_right _ (Nat.log2_self_le hn)
  · rw [Nat.add_right_comm, Nat.pow_add]
    exact Nat.mul_lt_mul_of_pos_right Nat.lt_log2_self hpos

theorem full_quotient {m k : Nat} (h : m.log2 = 52 + k) :
    2 ^ 52 ≤ m / 2 ^ k ∧ m / 2 ^ k < 2 ^ 53 := by
  have hm : m ≠ 0 := by
    rintro rfl
    rw [Nat.log2_zero] at h
    omega
  have hpos : 0 < 2 ^ k := Nat.two_pow_pos k
  obtain ⟨hleast, hbeyond⟩ := (Nat.log2_eq_iff hm).mp h
  rw [Nat.pow_add] at hleast
  rw [Nat.add_right_comm, Nat.pow_add] at hbeyond
  exact ⟨(Nat.le_div_iff_mul_le hpos).mpr hleast, (Nat.div_lt_iff_lt_mul hpos).mpr hbeyond⟩

/-! ### The nearest number -/

/-- A number of at most 53 binary places, zeros at its end apart. -/
def Precise (n : Nat) : Prop := ∃ m k, m < 2 ^ 53 ∧ n = m * 2 ^ k

/-- Of the numbers of at most 53 binary places the nearest one; of two, the one with the even digits. -/
def nearestPrecise (n : Nat) : Nat :=
  divHalfEven n (2 ^ (n.log2 - 52)) * 2 ^ (n.log2 - 52)

theorem precise_two_pow (k : Nat) : Precise (2 ^ k) := ⟨1, k, by decide, (Nat.one_mul _).symm⟩

theorem log_le_of_precise {m k : Nat} (hm : m < 2 ^ 53) : (m * 2 ^ k).log2 - 52 ≤ k := by
  by_cases hzero : m * 2 ^ k = 0
  · simp [hzero]
  · have hless : m * 2 ^ k < 2 ^ (53 + k) := by
      rw [Nat.pow_add]
      exact Nat.mul_lt_mul_of_pos_right hm (Nat.two_pow_pos k)
    have hlog := (Nat.log2_lt hzero).mpr hless
    omega

theorem nearest_of_precise {n : Nat} (h : Precise n) : nearestPrecise n = n := by
  obtain ⟨m, k, hm, rfl⟩ := h
  have hdvd : 2 ^ ((m * 2 ^ k).log2 - 52) ∣ m * 2 ^ k :=
    Nat.dvd_mul_left_of_dvd (Nat.pow_dvd_pow 2 (log_le_of_precise hm)) m
  rw [nearestPrecise, divHalfEven_of_dvd (Nat.two_pow_pos _) hdvd, Nat.div_mul_cancel hdvd]

theorem precise_of_small {n : Nat} (h : n < 2 ^ 53) : Precise n := ⟨n, 0, h, (Nat.mul_one n).symm⟩

theorem nearest_of_small {n : Nat} (h : n < 2 ^ 53) : nearestPrecise n = n :=
  nearest_of_precise (precise_of_small h)

theorem precise_nearest (n : Nat) : Precise (nearestPrecise n) := by
  by_cases hsmall : n < 2 ^ 53
  · rw [nearest_of_small hsmall]
    exact precise_of_small hsmall
  · have hlog : 53 ≤ n.log2 := (Nat.le_log2 (by omega)).mpr (by omega)
    have hquotient := full_quotient (m := n) (k := n.log2 - 52) (by omega)
    have hbounds := divHalfEven_bounds n (2 ^ (n.log2 - 52))
    by_cases hfull : divHalfEven n (2 ^ (n.log2 - 52)) = 2 ^ 53
    · rw [nearestPrecise, hfull, ← Nat.pow_add]
      exact precise_two_pow _
    · exact ⟨divHalfEven n (2 ^ (n.log2 - 52)), n.log2 - 52, by omega, rfl⟩

/-- No number of at most 53 binary places is nearer. -/
theorem nearest_nearest (n : Nat) {y : Nat} (h : Precise y) :
    ((nearestPrecise n : Int) - n).natAbs ≤ ((y : Int) - n).natAbs := by
  obtain ⟨m, k, hm, rfl⟩ := h
  have hgrid := divHalfEven_nearest n (Nat.two_pow_pos (n.log2 - 52))
  by_cases hk : n.log2 - 52 ≤ k
  · have hon : m * 2 ^ k = m * 2 ^ (k - (n.log2 - 52)) * 2 ^ (n.log2 - 52) := by
      rw [Nat.mul_assoc, ← Nat.pow_add, Nat.sub_add_cancel hk]
    rw [hon]
    exact hgrid _
  -- a number with more places than the grid lies below the power of two that `n` has reached
  · have hn : n ≠ 0 := by
      rintro rfl
      simp at hk
    have hreached : 2 ^ n.log2 ≤ n := Nat.log2_self_le hn
    have hpower : 2 ^ 52 * 2 ^ (n.log2 - 52) = 2 ^ n.log2 := by
      rw [← Nat.pow_add, Nat.add_sub_cancel' (by omega)]
    have hbelow : m * 2 ^ k < 2 ^ n.log2 := by
      calc m * 2 ^ k < 2 ^ 53 * 2 ^ k := Nat.mul_lt_mul_of_pos_right hm (Nat.two_pow_pos k)
        _ = 2 ^ (53 + k) := (Nat.pow_add 2 53 k).symm
        _ ≤ 2 ^ n.log2 := Nat.pow_le_pow_right (by decide) (by omega)
    have hnear := hgrid (2 ^ 52)
    rw [hpower] at hnear
    change ((divHalfEven n (2 ^ (n.log2 - 52)) * 2 ^ (n.log2 - 52) : Nat) - (n : Int)).natAbs ≤ _
    omega

theorem nearest_le {n k : Nat} (h : n ≤ 2 ^ k) : nearestPrecise n ≤ 2 ^ k := by
  have hnear := nearest_nearest n (precise_two_pow k)
  omega

theorem le_nearest {n k : Nat} (h : 2 ^ k ≤ n) : 2 ^ k ≤ nearestPrecise n := by
  have hnear := nearest_nearest n (precise_two_pow k)
  omega

/-- Zeros at the end of a number do not matter. -/
theorem nearest_mul_two_pow (n k : Nat) : nearestPrecise (n * 2 ^ k) = nearestPrecise n * 2 ^ k := by
  by_cases hsmall : n < 2 ^ 53
  · rw [nearest_of_small hsmall, nearest_of_precise ⟨n, k, hsmall, rfl⟩]
  · have hlog : 53 ≤ n.log2 := (Nat.le_log2 (by omega)).mpr (by omega)
    have hdigits : (n * 2 ^ k).log2 - 52 = n.log2 - 52 + k := by
      rw [log_mul_two_pow (by omega)]
      omega
    rw [nearestPrecise, hdigits, Nat.pow_add, divHalfEven_scale _ _ (Nat.two_pow_pos k), ← Nat.mul_assoc]
    rfl

/-! ### Integers -/

/-- Of the integers of at most 53 binary places the nearest one. -/
def nearestInteger (n : Int) : Int :=
  if n < 0 then -(nearestPrecise n.natAbs : Int) else nearestPrecise n.natAbs

theorem natAbs_nearest (n : Int) : (nearestInteger n).natAbs = nearestPrecise n.natAbs := by
  unfold nearestInteger
  split
  · rw [Int.natAbs_neg, Int.natAbs_natCast]
  · rw [Int.natAbs_natCast]

theorem nearestInteger_eq_iff (n : Int) : nearestInteger n = n ↔ Precise n.natAbs := by
  refine ⟨fun h => ?_, fun h => ?_⟩
  · have hprecise := precise_nearest n.natAbs
    rwa [← natAbs_nearest, h] at hprecise
  · rw [nearestInteger, nearest_of_precise h]
    split <;> omega

/-- No integer of at most 53 binary places is nearer. -/
theorem nearestInteger_nearest (n : Int) {y : Int} (h : Precise y.natAbs) :
    (nearestInteger n - n).natAbs ≤ (y - n).natAbs := by
  have hnear := nearest_nearest n.natAbs h
  have hzero := nearest_nearest n.natAbs (y := 0) ⟨0, 0, by decide, rfl⟩
  unfold nearestInteger
  split <;> omega

end EventRules.Number
