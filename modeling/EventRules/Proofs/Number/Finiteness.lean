import EventRules.Proofs.Number.Wholes

/-!
# Operations that do not overflow

Rounding a number to a float overflows only if the exponent of the float is too large. This bounds the
quotients by numbers that are no fractions, and it leaves products finite or infinite.
-/

namespace EventRules.Number
set_option autoImplicit false

open Float.Model Float.Model.UnpackedFloat

/-! ### Packing -/

theorem unpack_isFinite {b : BitVec Format.binary64.numBits}
    (h : @unpackExponent .binary64 b ≠ -1#11) :
    (Float.Model.UnpackedFloat.unpack .binary64 b).isFinite = true := by
  simp only [Float.Model.UnpackedFloat.unpack, if_neg h]
  split
  · split <;> rfl
  · rfl

/-- The finite unpacked floats whose exponent is not too large. -/
inductive Fits : UnpackedFloat → Prop
  | zero (s : Sign) : Fits (.zero s)
  | finite (s : Sign) {m : Nat} {e : Int} (hm : 0 < m) (he : e ≤ 971) : Fits (.finite s m e hm)

theorem Fits.isFinite {u : UnpackedFloat} (h : Fits u) : (⟨.pack u⟩ : Float).isFinite = true := by
  change (Float.Model.UnpackedFloat.unpack .binary64 (Float.Model.UnpackedFloat.pack .binary64 u)).isFinite = true
  apply unpack_isFinite
  cases h with
  | zero s =>
    rw [Float.Model.UnpackedFloat.pack, packedZero, unpackExponent_packComponents]
    decide
  | @finite s m e hm he =>
    have hroom : ¬2 ^ 11 ≤ (e + Format.binary64.exponentBias +
        Format.binary64.mantissaBitsWithoutImplicit).toNat + 1 := by
      change ¬2 ^ 11 ≤ (e + 1023 + 52).toNat + 1
      omega
    simp only [Float.Model.UnpackedFloat.pack]
    rw [if_neg hroom]
    split
    · rw [unpackExponent_packComponents]
      intro hfield
      have hvalue := congrArg BitVec.toNat hfield
      change (e + 1023 + 52).toNat % 2 ^ 11 = 2047 at hvalue
      omega
    · rw [unpackExponent_packComponents]
      decide

/-- A finite unpacked float is packed to a finite float or to an infinite one. -/
theorem pack_finite_or_infinite {u : UnpackedFloat} (h : u.isFinite = true)
    (hinf : (⟨.pack u⟩ : Float).isInf = false) : (⟨.pack u⟩ : Float).isFinite = true := by
  cases u with
  | notANumber => cases h
  | infinity s => cases h
  | zero s => exact (Fits.zero s).isFinite
  | finite s m e hm =>
    by_cases he : e ≤ 971
    · exact (Fits.finite s hm he).isFinite
    · have hover : 2 ^ 11 ≤ (e + Format.binary64.exponentBias +
          Format.binary64.mantissaBitsWithoutImplicit).toNat + 1 := by
        change 2 ^ 11 ≤ (e + 1023 + 52).toNat + 1
        omega
      change (Float.Model.UnpackedFloat.unpack .binary64
        (Float.Model.UnpackedFloat.pack .binary64 (.finite s m e hm))).isInf = false at hinf
      simp only [Float.Model.UnpackedFloat.pack] at hinf
      rw [if_pos hover, packedInfinity, Float.Model.UnpackedFloat.unpack] at hinf
      simp at hinf
      cases hinf

/-- What a finite float is unpacked to: a mantissa of 53 places at most, and no large exponent. -/
inductive Narrow : UnpackedFloat → Prop
  | zero (s : Sign) : Narrow (.zero s)
  | finite (s : Sign) {m : Nat} {e : Int} (hm : 0 < m) (hmost : m < 2 ^ 53) (he : e ≤ 971) :
      Narrow (.finite s m e hm)

theorem unpacked_narrow {x : Float} (h : x.isFinite = true) : Narrow x.toModel.unpack := by
  change x.toModel.unpack.isFinite = true at h
  unfold Float.Model.unpack at h ⊢
  generalize x.toModel.toBits.toBitVec = b at h ⊢
  by_cases hfull : @unpackExponent .binary64 b = -1#11
  · simp only [Float.Model.UnpackedFloat.unpack, if_pos hfull] at h
    split at h <;> cases h
  · have hfield : (@unpackExponent .binary64 b).toNat ≤ 2046 := by
      have hbound : (@unpackExponent .binary64 b).toNat < 2048 := BitVec.isLt _
      have hne : (@unpackExponent .binary64 b).toNat ≠ 2047 :=
        fun heq => hfull (BitVec.eq_of_toNat_eq heq)
      omega
    simp only [Float.Model.UnpackedFloat.unpack, if_neg hfull]
    split
    · rename_i hsubnormal
      split
      · exact .zero _
      · refine .finite _ _ (Nat.lt_trans (BitVec.isLt _) (by decide)) ?_
        rw [hsubnormal]
        decide
    · refine .finite _ _ (BitVec.isLt _) ?_
      change ((@unpackExponent .binary64 b).toNat : Int) - (1023 + 52) ≤ 971
      omega

/-! ### Rounding -/

theorem rounded_le (extended : ExtendedMantissa) : extended.roundedMantissa ≤ extended.mantissa + 1 := by
  unfold ExtendedMantissa.roundedMantissa Accuracy.roundToNearestEven
  split <;> omega

theorem shiftRight_mantissa (m k : Nat) (accuracy : Accuracy) :
    (ExtendedMantissa.ofMantissaAndAccuracy m accuracy >>> k).mantissa = m / 2 ^ k := by
  change (Nat.repeat ExtendedMantissa.shiftRightOne k _).mantissa = _
  induction k with
  | zero =>
    rw [Nat.repeat, Nat.pow_zero, Nat.div_one]
    unfold ExtendedMantissa.ofMantissaAndAccuracy
    split <;> rfl
  | succ k ih => rw [Nat.repeat, ExtendedMantissa.shiftRightOne, ih, Nat.div_div_eq_div_mul, Nat.pow_succ]

theorem log_quotient {m d : Nat} (h : m / d ≠ 0) : (m / d).log2 + d.log2 ≤ m.log2 := by
  have hd : d ≠ 0 := by
    rintro rfl
    exact h (Nat.div_zero m)
  have hm : m ≠ 0 := by
    rintro rfl
    exact h (Nat.zero_div d)
  rw [Nat.le_log2 hm, Nat.pow_add]
  calc 2 ^ (m / d).log2 * 2 ^ d.log2 ≤ m / d * d :=
        Nat.mul_le_mul (Nat.log2_self_le h) (Nat.log2_self_le hd)
    _ ≤ m := Nat.div_mul_le_self m d

theorem log_le_of_le {m n : Nat} (h : m ≤ 2 ^ n) : m.log2 ≤ n := by
  by_cases hm : m = 0
  · rw [hm]
    exact Nat.zero_le n
  · exact Nat.le_of_lt_succ ((Nat.log2_lt hm).mpr (Nat.lt_of_le_of_lt h (Nat.pow_lt_pow_succ (by decide))))

theorem log_of_le_succ {r m : Nat} (h : r ≤ m + 1) : r.log2 ≤ m.log2 + 1 := by
  have hm : m < 2 ^ (m.log2 + 1) := Nat.lt_log2_self
  exact log_le_of_le (by omega)

theorem targetExponent_eq (total : Int) : Format.binary64.targetExponent total = max (total - 53) (-1074) :=
  rfl

theorem Fits.of_mantissa (s : Sign) {m : Nat} {e : Int} (he : e ≤ 971) :
    Fits (if h : m = 0 then .zero s else .finite s m e (Nat.pos_of_ne_zero h)) := by
  split
  · exact .zero s
  · exact .finite s _ he

/-- A number that is well below the largest float is rounded to no larger one. -/
theorem round_fits (s : Sign) {m : Nat} {e : Int} (accuracy : Accuracy) (he : e ≤ 971)
    (htotal : m.log2 + 1 + e ≤ 1023) : Fits (roundWithAccuracy .binary64 s m e accuracy) := by
  apply Fits.of_mantissa
  simp only [targetExponent_eq, totalExponent]
  generalize hk : (max ((m.log2 : Int) + 1 + e - 53) (-1074) - e).toNat = k
  have hrounded := rounded_le (ExtendedMantissa.ofMantissaAndAccuracy m accuracy >>> k)
  rw [shiftRight_mantissa] at hrounded
  generalize (ExtendedMantissa.ofMantissaAndAccuracy m accuracy >>> k).roundedMantissa = r at hrounded ⊢
  have hlog := log_of_le_succ hrounded
  by_cases hzero : m / 2 ^ k = 0
  · rw [hzero, Nat.log2_zero] at hlog
    omega
  · have hquotient := log_quotient hzero
    rw [Nat.log2_two_pow] at hquotient
    omega

/-! ### Operations -/

theorem round_isFinite (s : Sign) (m : Nat) (e : Int) (accuracy : Accuracy) :
    (roundWithAccuracy .binary64 s m e accuracy).isFinite = true := by
  simp only [roundWithAccuracy]
  split <;> rfl

theorem neg_isFinite {x : Float} (h : x.isFinite = true) : (-x).isFinite = true := by
  change (⟨.pack (Float.Model.UnpackedFloat.neg x.toModel.unpack)⟩ : Float).isFinite = true
  have hnarrow := unpacked_narrow h
  generalize x.toModel.unpack = u at hnarrow
  cases hnarrow with
  | zero s => exact (Fits.zero _).isFinite
  | finite s hm _ he => exact (Fits.finite _ hm he).isFinite

/-- A product of finite floats is a number unless it is infinite. -/
theorem mul_isFinite {x y : Float} (hx : x.isFinite = true) (hy : y.isFinite = true)
    (hinf : (x * y).isInf = false) : (x * y).isFinite = true := by
  change (⟨.pack (Float.Model.UnpackedFloat.mul .binary64 x.toModel.unpack y.toModel.unpack)⟩ :
    Float).isInf = false at hinf
  change (⟨.pack (Float.Model.UnpackedFloat.mul .binary64 x.toModel.unpack y.toModel.unpack)⟩ :
    Float).isFinite = true
  refine pack_finite_or_infinite ?_ hinf
  have hnarrow := unpacked_narrow hx
  have hnarrow' := unpacked_narrow hy
  generalize x.toModel.unpack = u at hnarrow
  generalize y.toModel.unpack = v at hnarrow'
  cases hnarrow with
  | zero s => cases hnarrow' <;> rfl
  | finite s hm _ _ =>
    cases hnarrow' with
    | zero s' => rfl
    | finite s' hm' _ _ => exact round_isFinite _ _ _ _

/-- The float is finite and at least 2. -/
def AtLeastTwo : UnpackedFloat → Prop
  | .finite _ m e _ => 1 ≤ (m.log2 : Int) + e
  | _ => False

instance (u : UnpackedFloat) : Decidable (AtLeastTwo u) := by
  unfold AtLeastTwo
  split <;> infer_instance

theorem AtLeastTwo.isFinite {x : Float} (h : AtLeastTwo x.toModel.unpack) : x.isFinite = true := by
  change x.toModel.unpack.isFinite = true
  generalize x.toModel.unpack = u at h
  cases u with
  | finite s m e hm => rfl
  | zero s => cases h
  | infinity s => cases h
  | notANumber => cases h

/-- A quotient by a number that is no fraction is no larger than what was divided. -/
theorem div_isFinite {x y : Float} (hx : x.isFinite = true) (hy : AtLeastTwo y.toModel.unpack) :
    (x / y).isFinite = true := by
  change (⟨.pack (Float.Model.UnpackedFloat.div .binary64 x.toModel.unpack y.toModel.unpack)⟩ :
    Float).isFinite = true
  apply Fits.isFinite
  have hnarrow := unpacked_narrow hx
  generalize x.toModel.unpack = u at hnarrow
  generalize y.toModel.unpack = v at hy
  cases v with
  | zero s => cases hy
  | infinity s => cases hy
  | notANumber => cases hy
  | finite s' m' e' hm' =>
    change 1 ≤ (m'.log2 : Int) + e' at hy
    cases hnarrow with
    | zero s => exact .zero _
    | @finite s m e hm hmost he =>
      have hlog : m.log2 ≤ 52 := Nat.le_of_lt_succ ((Nat.log2_lt hm.ne').mpr hmost)
      simp only [Float.Model.UnpackedFloat.div, divCore, targetExponent_eq, totalExponent]
      generalize ht : min (e - e') (max ((m.log2 : Int) + 1 + e - (m'.log2 + 1 + e') - 53) (-1074)) = t
      apply round_fits
      · omega
      · rw [Nat.shiftLeft_eq]
        by_cases hzero : m * 2 ^ (e - e' - t).toNat / m' = 0
        · rw [hzero, Nat.log2_zero]
          omega
        · have hquotient := log_quotient hzero
          rw [log_mul_two_pow hm.ne'] at hquotient
          omega

end EventRules.Number
