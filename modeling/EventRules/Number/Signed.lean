/-!
Signed 64-bit numbers: an operation is computed on integers and then either refused or cut off where
the result leaves the range.
-/

namespace EventRules.Number
set_option autoImplicit false

/-- `n` as a signed 64-bit number, if it is in range. -/
def fit64? (n : Int) : Option Int64 :=
  if Int64.minValue.toInt ≤ n ∧ n ≤ Int64.maxValue.toInt then some (Int64.ofInt n) else none

/-- The signed 64-bit number nearest to `n`. -/
def clamp64 (n : Int) : Int64 :=
  if n < Int64.minValue.toInt then Int64.minValue
  else if Int64.maxValue.toInt < n then Int64.maxValue
  else Int64.ofInt n

theorem fit64_eq_some_iff {n : Int} {x : Int64} : fit64? n = some x ↔ x.toInt = n := by
  have hlo := Int64.le_toInt x
  have hhi := Int64.toInt_lt x
  have hmin := Int64.toInt_minValue
  have hmax := Int64.toInt_maxValue
  unfold fit64?
  split
  · rename_i h
    have hn : (Int64.ofInt n).toInt = n := Int64.toInt_ofInt_of_le (by omega) (by omega)
    constructor
    · rintro ⟨⟩; exact hn
    · rintro rfl; simp
  · rename_i h
    constructor
    · simp
    · rintro rfl; omega

theorem toInt_clamp64 (n : Int) :
    (clamp64 n).toInt = if n < Int64.minValue.toInt then Int64.minValue.toInt
      else if Int64.maxValue.toInt < n then Int64.maxValue.toInt else n := by
  have hmin := Int64.toInt_minValue
  have hmax := Int64.toInt_maxValue
  unfold clamp64
  split
  · rfl
  · split
    · rfl
    · exact Int64.toInt_ofInt_of_le (by omega) (by omega)

/-! Where the end of the range at which `n` may be cut off lies on the same side of `x`, cutting off
changes no comparison with `x`. -/

theorem clamp64_le_iff {n : Int} {x : Int64} (h : n ≤ Int64.maxValue.toInt) :
    clamp64 n ≤ x ↔ n ≤ x.toInt := by
  have hlo := Int64.le_toInt x
  have hmin := Int64.toInt_minValue
  rw [Int64.le_iff_toInt_le, toInt_clamp64]
  split
  · omega
  · split <;> omega

theorem le_clamp64_iff {n : Int} {x : Int64} (h : Int64.minValue.toInt ≤ n) :
    x ≤ clamp64 n ↔ x.toInt ≤ n := by
  have hhi := Int64.toInt_lt x
  have hmax := Int64.toInt_maxValue
  rw [Int64.le_iff_toInt_le, toInt_clamp64]
  split
  · omega
  · split <;> omega

theorem clamp64_lt_iff {n : Int} {x : Int64} (h : Int64.minValue < x) :
    clamp64 n < x ↔ n < x.toInt := by
  have hhi := Int64.toInt_lt x
  have hmax := Int64.toInt_maxValue
  rw [Int64.lt_iff_toInt_lt] at h ⊢
  rw [toInt_clamp64]
  split
  · omega
  · split <;> omega

/-- Difference of two times, cut off at the ends of the range. -/
def subClamped (a b : Int64) : Int64 := clamp64 (a.toInt - b.toInt)

/-- Sum of a time and a duration, cut off at the ends of the range. -/
def addClamped (a b : Int64) : Int64 := clamp64 (a.toInt + b.toInt)

theorem subClamped_le_iff {a b x : Int64} (h : 0 ≤ b) :
    subClamped a b ≤ x ↔ a.toInt - b.toInt ≤ x.toInt := by
  have hb : 0 ≤ b.toInt := Int64.le_iff_toInt_le.mp h
  have hhi := Int64.toInt_lt a
  have hmax := Int64.toInt_maxValue
  exact clamp64_le_iff (by omega)

theorem subClamped_lt_iff {a b x : Int64} (h : 0 ≤ x) :
    subClamped a b < x ↔ a.toInt - b.toInt < x.toInt := by
  have hx : 0 ≤ x.toInt := Int64.le_iff_toInt_le.mp h
  have hmin := Int64.toInt_minValue
  exact clamp64_lt_iff (Int64.lt_iff_toInt_lt.mpr (by omega))

theorem le_addClamped_iff {a b x : Int64} (h : 0 ≤ b) :
    x ≤ addClamped a b ↔ x.toInt ≤ a.toInt + b.toInt := by
  have hb : 0 ≤ b.toInt := Int64.le_iff_toInt_le.mp h
  have hlo := Int64.le_toInt a
  have hmin := Int64.toInt_minValue
  exact le_clamp64_iff (by omega)

end EventRules.Number
