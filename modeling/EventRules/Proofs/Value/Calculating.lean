import EventRules.Proofs.Number.Exactness
import EventRules.Proofs.Number.Wholes
import EventRules.Value.Arithmetic

/-!
# Calculating with integers

A calculation with two integers gives the integer that is its result, where there is one in range; in every
other case but a division by zero it gives a float. Where an integer does not fit the decimals take over,
and where a product does not fit these either, the product of the floats: all of them are whole and beyond
the integers as well.
-/

namespace EventRules
set_option autoImplicit false

open Number

/-- The calculation that an operator stands for. -/
def BinaryOp.calculation? : BinaryOp → Option (ℚ → ℚ → ℚ)
  | add => some (· + ·)
  | subtract => some (· - ·)
  | multiply => some (· * ·)
  | divide => some (· / ·)
  | _ => none

/-- A result for the number `q`: the integer where `q` is one in range, a float otherwise. -/
structure Renders (result : Except CalculationError Value) (q : ℚ) : Prop where
  integer_iff : ∀ r : Int64, result = .ok (.integer r) ↔ q = r.toInt
  float_of_ne : (∀ r : Int64, q ≠ r.toInt) → ∃ x, result = .ok (.float x)

namespace Renders

variable {q : ℚ}

theorem no_error {result : Except CalculationError Value} (h : Renders result q) (e : CalculationError) :
    result ≠ .error e := by
  rintro rfl
  have hne : ∀ r : Int64, q ≠ r.toInt := fun r hr => nomatch (h.integer_iff r).mpr hr
  obtain ⟨x, hx⟩ := h.float_of_ne hne
  cases hx

theorem integer {r : Int64} (h : q = r.toInt) : Renders (.ok (.integer r)) q where
  integer_iff s := by
    rw [h, Int.cast_inj, Int64.toInt_inj, Except.ok.injEq, Value.integer.injEq]
  float_of_ne hne := absurd h (hne r)

theorem float {x : Float} (h : ∀ r : Int64, q ≠ r.toInt) : Renders (.ok (.float x)) q where
  integer_iff r := by
    refine ⟨fun heq => ?_, fun heq => absurd heq (h r)⟩
    cases heq
  float_of_ne _ := ⟨x, rfl⟩

end Renders

theorem Number.ne_of_unfit {n : Int} (h : fit64? n = none) (r : Int64) : (n : ℚ) ≠ r.toInt := by
  intro heq
  rw [fit64_eq_some_iff.mpr (Int.cast_injective heq).symm] at h
  cases h

namespace Value

theorem whole_of_unscaled {d : Decimal} (h : d.scale = 0) :
    d.isWhole = true ∧ d.truncate = d.coefficient := by
  rw [Decimal.isWhole, Decimal.truncate, h]
  exact ⟨beq_iff_eq.mpr (Nat.mod_one _), Int.tdiv_one _⟩

variable {n : Int} {r : Int64} {d : Decimal}

theorem ofDecimal_fitting (h : d.scale = 0) (hfit : fit64? d.coefficient = some r) :
    ofDecimal d = .integer r := by
  obtain ⟨hwhole, htruncate⟩ := whole_of_unscaled h
  rw [ofDecimal, if_pos hwhole, htruncate, hfit]

theorem ofDecimal_unfit (h : d.scale = 0) (hfit : fit64? d.coefficient = none) :
    ofDecimal d = .float d.toFloat := by
  obtain ⟨hwhole, htruncate⟩ := whole_of_unscaled h
  rw [ofDecimal, if_pos hwhole, htruncate, hfit]

theorem ofDecimal_renders (h : Decimal.make? n 0 = some d) : Renders (.ok (ofDecimal d)) n := by
  obtain ⟨rfl, hscale⟩ := Decimal.make_eq_some h
  cases hfit : fit64? d.coefficient with
  | some r =>
    rw [ofDecimal_fitting hscale hfit]
    exact .integer (congrArg _ (fit64_eq_some_iff.mp hfit).symm)
  | none =>
    rw [ofDecimal_unfit hscale hfit]
    exact .float (ne_of_unfit hfit)

/-! ### Products beyond the decimals -/

theorem float_ofDecimal {x : Float} (hx : Decimal.ofFloat? x = Decimal.make? n 0)
    (hn : fit64? n = none) : ∃ y, (match Decimal.ofFloat? x with
      | some d => ofDecimal d
      | none => .float x) = .float y := by
  rw [hx]
  split
  · next d hd =>
    obtain ⟨rfl, hscale⟩ := Decimal.make_eq_some hd
    exact ⟨_, ofDecimal_unfit hscale hn⟩
  · exact ⟨x, rfl⟩

theorem exponent_of_integer {n : Int64} (hn : n.toInt ≠ 0) : ∃ x : NormalFloat,
    Float.ofInt n.toInt = x.toFloat ∧ (n.toInt.natAbs.log2 : Int) - 52 ≤ x.exponent ∧ x.exponent ≤ 11 := by
  have hlow := Int64.le_toInt n
  have hhigh := Int64.toInt_lt n
  have hlog := log_of_int64 n
  obtain ⟨x, hx, -, hsize⟩ := ofInt_toFloat hn (by omega)
  have hleast := hsize.exponent_ge (le_nearest (Nat.log2_self_le (by omega)))
  have hnear : nearestPrecise n.toInt.natAbs ≤ 2 ^ 63 := nearest_le (by omega)
  have hmost := hsize.exponent_le (l := 63) (by omega)
  exact ⟨x, hx, by omega, by omega⟩

theorem log_sum_of_product {m n k : Nat} (h : 2 ^ k ≤ m * n) : k ≤ m.log2 + n.log2 + 1 := by
  have hless : m * n < 2 ^ (m.log2 + n.log2 + 2) := by
    calc m * n < 2 ^ (m.log2 + 1) * 2 ^ (n.log2 + 1) :=
          Nat.mul_lt_mul'' Nat.lt_log2_self Nat.lt_log2_self
      _ = 2 ^ (m.log2 + n.log2 + 2) := by
          rw [← Nat.pow_add]
          ring
  have hplaces := (Nat.pow_lt_pow_iff_right (by decide)).mp (Nat.lt_of_le_of_lt h hless)
  omega

/-- If the product of two integers is large, the product of their floats is whole and large. -/
theorem product_size {a b : Int64} (h : 2 ^ 96 ≤ (a.toInt * b.toInt).natAbs) : ∃ z : NormalFloat, ∃ v,
    Float.ofInt a.toInt * Float.ofInt b.toInt = z.toFloat ∧ z.HasSize v 0 ∧ 2 ^ 95 ≤ v := by
  have ha : a.toInt ≠ 0 := by
    intro hzero
    simp [hzero] at h
  have hb : b.toInt ≠ 0 := by
    intro hzero
    simp [hzero] at h
  obtain ⟨x, hx, hxlow, hxhigh⟩ := exponent_of_integer ha
  obtain ⟨y, hy, hylow, hyhigh⟩ := exponent_of_integer hb
  rw [Int.natAbs_mul] at h
  have hlogs := log_sum_of_product h
  -- the exact product has 105 places at least, of which 53 are kept: the exponent grows by 52
  obtain ⟨z, hz, -, hsize⟩ := mul_toFloat x y (by omega) (by omega)
  have hmantissas : 2 ^ 104 ≤ x.mantissa * y.mantissa := by
    calc 2 ^ 104 = 2 ^ 52 * 2 ^ 52 := by decide
      _ ≤ x.mantissa * y.mantissa := Nat.mul_le_mul x.low y.low
  have hexponent := hsize.exponent_ge (le_nearest hmantissas)
  obtain ⟨j, hj⟩ : ∃ j : Nat, z.exponent = 43 + j := ⟨(z.exponent - 43).toNat, by omega⟩
  refine ⟨z, z.mantissa * 2 ^ (43 + j), by rw [hx, hy, hz], ⟨43 + j, 0, by omega, ?_⟩, ?_⟩
  · rw [Nat.pow_zero, Nat.mul_one]
  · calc 2 ^ 95 = 2 ^ 52 * 2 ^ 43 := by decide
      _ ≤ z.mantissa * 2 ^ (43 + j) :=
          Nat.mul_le_mul z.low (Nat.pow_le_pow_right (by decide) (Nat.le_add_right 43 j))

theorem float_of_product {a b : Int64} (h : 2 ^ 96 ≤ (a.toInt * b.toInt).natAbs) :
    ∃ x, floatArithmetic .multiply (Decimal.ofInt64 a) (Decimal.ofInt64 b) = .float x := by
  obtain ⟨z, v, hz, hsize, hv⟩ := product_size h
  have hunfit : fit64? (if z.sign == .negative then -(v : Int) else v) = none := by
    have hmin := Int64.toInt_minValue
    have hmax := Int64.toInt_maxValue
    refine if_neg ?_
    split <;> omega
  have hfloat := float_ofDecimal (Decimal.ofFloat_size hsize) hunfit
  rw [← hz] at hfloat
  unfold floatArithmetic
  rw [Decimal.toFloat_unscaled rfl, Decimal.toFloat_unscaled rfl]
  exact hfloat

/-! ### The four operators -/

theorem decimals_render {exact : Option Decimal} {v : Value} (hexact : exact = Decimal.make? n 0)
    (hfloat : 2 ^ 96 ≤ n.natAbs → ∃ x, v = .float x) :
    Renders (match exact with
      | some d => .ok (ofDecimal d)
      | none => .ok v) n := by
  subst hexact
  split
  · next d hd => exact ofDecimal_renders hd
  · next hnone =>
    have hlarge : 2 ^ 96 ≤ n.natAbs := by
      by_contra hsmall
      rw [Decimal.make?, dif_pos ⟨Nat.lt_of_not_le hsmall, by decide⟩] at hnone
      cases hnone
    obtain ⟨x, rfl⟩ := hfloat hlarge
    refine .float fun r heq => ?_
    have hlow := Int64.le_toInt r
    have hhigh := Int64.toInt_lt r
    have hn := Int.cast_injective heq
    omega

variable {op : BinaryOp} {a b : Int64}

/-- An integer in range is the result, anything else is left to the decimals. -/
def fitted (n : Int) : IntegerResult :=
  match fit64? n with
  | some r => .done (.integer r)
  | none => .elsewhere

theorem fitted_renders (hinteger : integerArithmetic op a b = fitted n)
    (hdecimal : Renders (decimalArithmetic op (.ofInt64 a) (.ofInt64 b)) n) :
    Renders (arithmetic op (.integer a) (.integer b)) n := by
  unfold arithmetic
  dsimp only
  rw [hinteger, fitted]
  cases hfit : fit64? n with
  | some r => exact .integer (congrArg _ (fit64_eq_some_iff.mp hfit).symm)
  | none => exact hdecimal

theorem sum_renders : Renders (arithmetic .add (.integer a) (.integer b)) ((a.toInt : ℚ) + b.toInt) := by
  have halow := Int64.le_toInt a
  have hahigh := Int64.toInt_lt a
  have hblow := Int64.le_toInt b
  have hbhigh := Int64.toInt_lt b
  rw [← Int.cast_add]
  refine fitted_renders rfl (decimals_render (Decimal.add_unscaled rfl rfl) fun hlarge => ?_)
  change 2 ^ 96 ≤ (a.toInt + b.toInt).natAbs at hlarge
  omega

theorem difference_renders :
    Renders (arithmetic .subtract (.integer a) (.integer b)) ((a.toInt : ℚ) - b.toInt) := by
  have halow := Int64.le_toInt a
  have hahigh := Int64.toInt_lt a
  have hblow := Int64.le_toInt b
  have hbhigh := Int64.toInt_lt b
  rw [← Int.cast_sub]
  refine fitted_renders rfl (decimals_render (Decimal.sub_unscaled rfl rfl) fun hlarge => ?_)
  change 2 ^ 96 ≤ (a.toInt - b.toInt).natAbs at hlarge
  omega

theorem product_renders :
    Renders (arithmetic .multiply (.integer a) (.integer b)) ((a.toInt : ℚ) * b.toInt) := by
  rw [← Int.cast_mul]
  exact fitted_renders rfl (decimals_render (Decimal.mul_unscaled rfl rfl) float_of_product)

theorem quotient_renders (hb : b ≠ 0) :
    Renders (arithmetic .divide (.integer a) (.integer b)) ((a.toInt : ℚ) / b.toInt) := by
  have hzero : b.toInt ≠ 0 := fun h => hb (Int64.toInt_inj.mp h)
  have hcast : (b.toInt : ℚ) ≠ 0 := Int.cast_ne_zero.mpr hzero
  have halow := Int64.le_toInt a
  have hahigh := Int64.toInt_lt a
  by_cases hdvd : b.toInt ∣ a.toInt
  · have hquotient : a.toInt.tdiv b.toInt = a.toInt / b.toInt := Int.tdiv_eq_ediv_of_dvd hdvd
    rw [← Int.cast_div hdvd hcast]
    refine fitted_renders ?_ ?_
    · have hfitted : integerArithmetic .divide a b = fitted (a.toInt.tdiv b.toInt) :=
        (if_neg hb).trans (if_pos (Int.tmod_eq_zero_of_dvd hdvd))
      rw [hfitted, hquotient]
    · have hnonzero : (Decimal.ofInt64 b).isZero = false := beq_false_of_ne hzero
      rw [decimalArithmetic, hnonzero]
      refine decimals_render (Decimal.div_unscaled rfl rfl hzero hdvd) fun hlarge => ?_
      change 2 ^ 96 ≤ (a.toInt / b.toInt).natAbs at hlarge
      have hsmaller := Int.natAbs_ediv_le_natAbs a.toInt b.toInt
      omega
  · have hfloat : arithmetic .divide (.integer a) (.integer b) =
        .ok (.float (Float.ofInt a.toInt / Float.ofInt b.toInt)) := by
      have hrest : a.toInt.tmod b.toInt ≠ 0 := fun h => hdvd (Int.dvd_of_tmod_eq_zero h)
      unfold arithmetic
      dsimp only
      rw [integerArithmetic, if_neg hb, if_neg hrest]
    rw [hfloat]
    refine .float fun r heq => hdvd ⟨r.toInt, ?_⟩
    rw [div_eq_iff hcast, mul_comm] at heq
    exact_mod_cast heq

/-- Arithmetic on two integers never wraps: it fails only for a division by zero, gives the integer that is
the result where there is one in range, and a float everywhere else. -/
theorem integer_arithmetic_never_wraps {f : ℚ → ℚ → ℚ} (hop : op.calculation? = some f) (a b : Int64) :
    (arithmetic op (.integer a) (.integer b) = .error .divisionByZero ↔ op = .divide ∧ b = 0) ∧
    (¬(op = .divide ∧ b = 0) →
      (∀ r : Int64, arithmetic op (.integer a) (.integer b) = .ok (.integer r) ↔
        f a.toInt b.toInt = r.toInt) ∧
      ((∀ r : Int64, f a.toInt b.toInt ≠ r.toInt) →
        ∃ x, arithmetic op (.integer a) (.integer b) = .ok (.float x))) := by
  have hrenders : ¬(op = .divide ∧ b = 0) →
      Renders (arithmetic op (.integer a) (.integer b)) (f a.toInt b.toInt) := by
    intro hdivisor
    cases op with
    | add =>
      cases hop
      exact sum_renders
    | subtract =>
      cases hop
      exact difference_renders
    | multiply =>
      cases hop
      exact product_renders
    | divide =>
      cases hop
      exact quotient_renders fun hb => hdivisor ⟨rfl, hb⟩
    | _ => cases hop
  refine ⟨⟨fun herror => ?_, ?_⟩, fun h => ⟨(hrenders h).integer_iff, (hrenders h).float_of_ne⟩⟩
  · by_contra hdivisor
    exact (hrenders hdivisor).no_error _ herror
  · rintro ⟨rfl, rfl⟩
    rfl

/-- A quotient beyond the integers, a product beyond the decimals, no divisor and an exact quotient. -/
theorem integer_arithmetic_never_wraps_at_limits :
    BinaryOp.calculation? .divide = some (· / ·) ∧ BinaryOp.calculation? .multiply = some (· * ·) ∧
    (∃ x, arithmetic .divide (.integer Int64.minValue) (.integer (-1)) = .ok (.float x)) ∧
    (∃ x, arithmetic .multiply (.integer Int64.maxValue) (.integer Int64.minValue) = .ok (.float x)) ∧
    arithmetic .divide (.integer 7) (.integer 0) = .error .divisionByZero ∧
    arithmetic .divide (.integer (-12)) (.integer 4) = .ok (.integer (-3)) := by
  have hbeyond : ∀ n : Int, 2 ^ 63 ≤ n.natAbs → n ≠ -2 ^ 63 → ∀ r : Int64, (n : ℚ) ≠ r.toInt := by
    intro n hn hmin r heq
    have hlow := Int64.le_toInt r
    have hhigh := Int64.toInt_lt r
    have hr := Int.cast_injective heq
    omega
  have hdivide : BinaryOp.calculation? .divide = some (· / ·) := rfl
  have hmultiply : BinaryOp.calculation? .multiply = some (· * ·) := rfl
  refine ⟨hdivide, hmultiply, ?_, ?_, ?_, ?_⟩
  · refine ((integer_arithmetic_never_wraps hdivide _ _).2 (by decide)).2 fun r => ?_
    have hquotient : ((Int64.minValue.toInt : ℚ) / ((-1 : Int64).toInt : ℚ)) = ((2 ^ 63 : Int) : ℚ) := by
      have hminus : (-1 : Int64).toInt = -1 := by decide
      rw [Int64.toInt_minValue, hminus]
      norm_num
    rw [hquotient]
    exact hbeyond _ (by decide) (by decide) r
  · refine ((integer_arithmetic_never_wraps hmultiply _ _).2 (by decide)).2 fun r => ?_
    have hproduct : ((Int64.maxValue.toInt : ℚ) * (Int64.minValue.toInt : ℚ)) =
        ((Int64.maxValue.toInt * Int64.minValue.toInt : Int) : ℚ) := (Int.cast_mul _ _).symm
    rw [hproduct]
    exact hbeyond _ (by decide) (by decide) r
  · exact (integer_arithmetic_never_wraps hdivide _ _).1.mpr ⟨rfl, rfl⟩
  · refine (((integer_arithmetic_never_wraps hdivide _ _).2 (by decide)).1 (-3)).mpr ?_
    have htwelve : (-12 : Int64).toInt = -12 := by decide
    have hfour : (4 : Int64).toInt = 4 := by decide
    have hthree : (-3 : Int64).toInt = -3 := by decide
    rw [htwelve, hfour, hthree]
    norm_num

end Value

end EventRules
