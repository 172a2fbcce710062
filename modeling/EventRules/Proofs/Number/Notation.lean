import EventRules.Proofs.Number.Exactness
import EventRules.Proofs.Rule.Numerals

/-!
# Decimals in plain notation

The text of a decimal reads as the same number, without the zeros at the end of its places.
-/

namespace EventRules.Number
set_option autoImplicit false

/-! ### Digits -/

theorem ofDigits_padded (k : Nat) (ds : List Char) : ofDigits (List.replicate k '0' ++ ds) = ofDigits ds := by
  have hzeros : (List.replicate k '0').foldl (fun n c => 10 * n + digitValue c) 0 = 0 := by
    induction k with
    | zero => rfl
    | succ k ih => exact ih
  rw [ofDigits, List.foldl_append, hzeros]
  rfl

namespace Decimal

/-- The places that are given up hold zeros. -/
theorem stripZeros_eq (c : Int) (s : Nat) :
    (stripZeros c s).2 ≤ s ∧ c = (stripZeros c s).1 * 10 ^ (s - (stripZeros c s).2) := by
  induction s generalizing c with
  | zero => exact ⟨Nat.le_refl 0, (Int.mul_one c).symm⟩
  | succ s ih =>
    rw [stripZeros]
    split
    · next hzero =>
      obtain ⟨hle, hc⟩ := ih (c / 10)
      refine ⟨Nat.le_succ_of_le hle, ?_⟩
      rw [Nat.succ_sub hle, pow_succ, ← mul_assoc, ← hc]
      omega
    · refine ⟨Nat.le_refl _, ?_⟩
      rw [Nat.sub_self, pow_zero, mul_one]

/-- What stands behind the digits in front of the point. -/
def pointed : List Char → List Char
  | [] => []
  | c :: cs => '.' :: c :: cs

/-- The digits in front of the point and behind it are those of the coefficient. -/
theorem read_pointed {whole fraction : List Char} (hwhole : ∀ c ∈ whole, c.isDigit = true) (hne : whole ≠ [])
    (hfraction : ∀ c ∈ fraction, c.isDigit = true) :
    read? (whole ++ pointed fraction) = make? (ofDigits (whole ++ fraction)) fraction.length ∧
      read? ('-' :: (whole ++ pointed fraction)) = make? (-ofDigits (whole ++ fraction)) fraction.length := by
  have htake : (whole ++ pointed fraction).takeWhile Char.isDigit = whole := by
    rw [List.takeWhile_append_of_pos hwhole]
    cases fraction <;> simp [pointed]
  have hdrop : (whole ++ pointed fraction).dropWhile Char.isDigit = pointed fraction := by
    rw [List.dropWhile_append_of_pos hwhole]
    cases fraction <;> simp [pointed]
  refine ⟨?_, ?_⟩
  · have hunsigned : ∀ cs, whole ++ pointed fraction ≠ '-' :: cs := by
      obtain ⟨d, ds, rfl⟩ := List.exists_cons_of_ne_nil hne
      intro cs h
      have hd := hwhole d List.mem_cons_self
      rw [(List.cons_eq_cons.mp h).1] at hd
      cases hd
    rw [read?, htake, hdrop]
    · cases fraction with
      | nil => rfl
      | cons c cs =>
        have hall : (c :: cs).all Char.isDigit = true := List.all_eq_true.mpr hfraction
        simp only [pointed, hall, if_true]
        rfl
    · exact hunsigned
  · rw [read?, htake, hdrop]
    cases fraction with
    | nil => rfl
    | cons c cs =>
      have hall : (c :: cs).all Char.isDigit = true := List.all_eq_true.mpr hfraction
      simp only [pointed, hall, if_true]
      rfl

/-- The digits of a coefficient, with as many zeros in front that one digit at least stands before the point. -/
def padded (c : Int) (s : Nat) : List Char :=
  List.replicate (s + 1 - (digits c.natAbs).length) '0' ++ digits c.natAbs

theorem padded_spec (c : Int) (s : Nat) : (∀ x ∈ padded c s, x.isDigit = true) ∧
    s < (padded c s).length ∧ ofDigits (padded c s) = c.natAbs := by
  refine ⟨fun x hx => ?_, ?_, ?_⟩
  · rcases List.mem_append.mp hx with hx | hx
    · rw [List.eq_of_mem_replicate hx]
      rfl
    · exact digits_are_digits _ x hx
  · rw [padded, List.length_append, List.length_replicate]
    omega
  · exact (ofDigits_padded _ _).trans (ofDigits_digits _)

theorem cut_pointed {ds : List Char} {s : Nat} (h : s < ds.length) :
    (if s = 0 then ds else ds.take (ds.length - s) ++ '.' :: ds.drop (ds.length - s)) =
      ds.take (ds.length - s) ++ pointed (ds.drop (ds.length - s)) := by
  split
  · next hs => simp [hs, pointed]
  · have hbehind : ds.drop (ds.length - s) ≠ [] := by
      rw [ne_eq, List.drop_eq_nil_iff]
      omega
    obtain ⟨x, xs, hxs⟩ := List.exists_cons_of_ne_nil hbehind
    rw [hxs]
    rfl

/-- The last digits stand behind the point. -/
theorem toText_pointed (d : Decimal) {c : Int} {s : Nat} (h : stripZeros d.coefficient d.scale = (c, s)) :
    ∃ whole fraction, whole ++ fraction = padded c s ∧ whole ≠ [] ∧ fraction.length = s ∧
      d.toText.toList = if c < 0 then '-' :: (whole ++ pointed fraction) else whole ++ pointed fraction := by
  obtain ⟨-, hlength, -⟩ := padded_spec c s
  refine ⟨(padded c s).take ((padded c s).length - s), (padded c s).drop ((padded c s).length - s),
    List.take_append_drop _ _, fun hnone => ?_, ?_, ?_⟩
  · have hzero := congrArg List.length hnone
    rw [List.length_take, List.length_nil] at hzero
    omega
  · rw [List.length_drop]
    omega
  · rw [toText, h, String.toList_ofList, ← cut_pointed hlength]
    rfl

/-- The text of a decimal is read back as the same number, without zeros at the end of its places. -/
theorem read_toText (d : Decimal) : ∃ e, read? d.toText.toList = some e ∧
    (e.coefficient, e.scale) = stripZeros d.coefficient d.scale ∧ e.toRat = d.toRat := by
  obtain ⟨hle, hc⟩ := stripZeros_eq d.coefficient d.scale
  generalize hstripped : stripZeros d.coefficient d.scale = stripped at hle hc
  obtain ⟨c, s⟩ := stripped
  dsimp only at hle hc
  have hfits : c.natAbs < Nat.pow 2 96 := by
    have hfits := d.fits
    rw [hc, Int.natAbs_mul] at hfits
    refine Nat.lt_of_le_of_lt (Nat.le_mul_of_pos_right _ ?_) hfits
    exact Int.natAbs_pos.mpr (by positivity)
  refine ⟨⟨c, s, hfits, Nat.le_trans hle d.scale_le⟩, ?_, rfl, ?_⟩
  · obtain ⟨hdigits, -, hvalue⟩ := padded_spec c s
    obtain ⟨whole, fraction, hsplit, hne, rfl, htext⟩ := d.toText_pointed hstripped
    rw [← hsplit] at hdigits hvalue
    obtain ⟨hunsigned, hsigned⟩ := read_pointed (fun x hx => hdigits x (List.mem_append_left _ hx)) hne
      fun x hx => hdigits x (List.mem_append_right _ hx)
    rw [htext]
    split
    · next hnegative =>
      rw [hsigned, hvalue, Int.ofNat_natAbs_of_nonpos (Int.le_of_lt hnegative), Int.neg_neg]
      exact make_self ⟨c, fraction.length, hfits, _⟩
    · next hnegative =>
      rw [hunsigned, hvalue, Int.natAbs_of_nonneg (Int.not_lt.mp hnegative)]
      exact make_self ⟨c, fraction.length, hfits, _⟩
  · have hsplit : (10 : ℚ) ^ d.scale = 10 ^ (d.scale - s) * 10 ^ s := by
      rw [← pow_add, Nat.sub_add_cancel hle]
    rw [toRat, toRat, hc, hsplit]
    push_cast
    field_simp

end Decimal

end EventRules.Number
