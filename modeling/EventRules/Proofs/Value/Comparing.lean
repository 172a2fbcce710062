import EventRules.Proofs.Number.Exactness
import EventRules.Proofs.Number.Spelling
import EventRules.Proofs.Number.Wholes
import EventRules.Value.Compare

/-!
# Comparing numbers

Values that have a decimal are compared as the rational numbers these decimals stand for, whatever their
kinds and whichever comparison is asked: so the six comparisons are those of one order. The text of an
integer has the decimal of its float, the nearest number of 53 binary places, and compares as the integer
itself only where it has no more places than that.
-/

namespace EventRules
set_option autoImplicit false

open Number Text

/-! ### The six comparisons -/

/-- The relation that a comparison asks about. -/
def CompareOp.Relates : CompareOp → ℚ → ℚ → Prop
  | equal => (· = ·)
  | notEqual => (· ≠ ·)
  | greater => (· > ·)
  | less => (· < ·)
  | greaterEqual => (· ≥ ·)
  | lessEqual => (· ≤ ·)

theorem CompareOp.holds_cmp (op : CompareOp) (x y : ℚ) : op.holds (cmp x y) = true ↔ op.Relates x y := by
  cases op with
  | equal => simp [holds, Relates, cmp_eq_eq_iff]
  | notEqual => simp [holds, Relates, cmp_eq_eq_iff]
  | greater => simp [holds, Relates, cmp_eq_gt_iff]
  | less => simp [holds, Relates, cmp_eq_lt_iff]
  | greaterEqual => simp [holds, Relates, cmp_eq_lt_iff]
  | lessEqual => simp [holds, Relates, cmp_eq_gt_iff]

/-- An order known is one of less, equal and greater. -/
theorem CompareOp.exactly_one_holds (o : Ordering) :
    ∃! op, op ∈ [less, equal, greater] ∧ op.holds o = true := by
  cases o with
  | lt =>
    refine ⟨less, by decide, ?_⟩
    rintro op ⟨hop, hholds⟩
    cases op <;> simp [holds] at hop hholds ⊢
  | eq =>
    refine ⟨equal, by decide, ?_⟩
    rintro op ⟨hop, hholds⟩
    cases op <;> simp [holds] at hop hholds ⊢
  | gt =>
    refine ⟨greater, by decide, ?_⟩
    rintro op ⟨hop, hholds⟩
    cases op <;> simp [holds] at hop hholds ⊢

namespace Value

theorem compare_iff (op : CompareOp) {a b : Value} {x y : Decimal} (ha : a.toDecimal? = some x)
    (hb : b.toDecimal? = some y) : compare op a b = true ↔ op.Relates x.toRat y.toRat := by
  rw [compare_decimals op ha hb, x.compare_eq, op.holds_cmp]

/-- On values that have a decimal, of any kinds, the six comparisons are those of one total preorder. -/
theorem comparisons_of_one_order {a b c : Value} (ha : a.toDecimal?.isSome) (hb : b.toDecimal?.isSome)
    (hc : c.toDecimal?.isSome) :
    (∃! op, op ∈ [CompareOp.less, .equal, .greater] ∧ compare op a b = true) ∧
    compare .greaterEqual a b = (compare .greater a b || compare .equal a b) ∧
    compare .lessEqual a b = (compare .less a b || compare .equal a b) ∧
    compare .notEqual a b = !compare .equal a b ∧
    compare .less a b = compare .greater b a ∧
    ∀ op ∈ [CompareOp.less, .equal, .lessEqual],
      compare op a b = true → compare op b c = true → compare op a c = true := by
  obtain ⟨x, ha⟩ := Option.isSome_iff_exists.mp ha
  obtain ⟨y, hb⟩ := Option.isSome_iff_exists.mp hb
  obtain ⟨z, hc⟩ := Option.isSome_iff_exists.mp hc
  refine ⟨?_, ?_, ?_, ?_, ?_, ?_⟩
  · simpa only [compare_decimals _ ha hb] using CompareOp.exactly_one_holds (x.compare y)
  · rw [Bool.eq_iff_iff, Bool.or_eq_true, compare_iff _ ha hb, compare_iff _ ha hb, compare_iff _ ha hb]
    exact le_iff_lt_or_eq.trans (or_congr Iff.rfl eq_comm)
  · rw [Bool.eq_iff_iff, Bool.or_eq_true, compare_iff _ ha hb, compare_iff _ ha hb, compare_iff _ ha hb]
    exact le_iff_lt_or_eq
  · rfl
  · rw [Bool.eq_iff_iff, compare_iff _ ha hb, compare_iff _ hb ha]
    exact Iff.rfl
  · intro op hop
    rw [compare_iff op ha hb, compare_iff op hb hc, compare_iff op ha hc]
    simp only [List.mem_cons, List.not_mem_nil, or_false] at hop
    rcases hop with rfl | rfl | rfl
    · exact lt_trans
    · exact Eq.trans
    · exact le_trans

/-- A sum of floats, a text and an integer. -/
theorem comparisons_of_one_order_mixed :
    (Value.float (0.1 + 0.2)).toDecimal?.isSome ∧ (Value.text "0.3").toDecimal?.isSome ∧
      (Value.integer 1).toDecimal?.isSome ∧
    compare .equal (.float (0.1 + 0.2)) (.text "0.3") = true ∧
    compare .lessEqual (.text "0.3") (.integer 1) = true ∧
    compare .lessEqual (.float (0.1 + 0.2)) (.integer 1) = true := by
  have hfloat : (Value.float (0.1 + 0.2)).toDecimal?.isSome := by decide +kernel
  have htext : (Value.text "0.3").toDecimal?.isSome := by decide +kernel
  have hinteger : (Value.integer 1).toDecimal?.isSome := rfl
  have hequal : compare .equal (.float (0.1 + 0.2)) (.text "0.3") = true := by decide +kernel
  have hmost : compare .lessEqual (.text "0.3") (.integer 1) = true := by decide +kernel
  obtain ⟨-, -, heither, -, -, htrans⟩ := comparisons_of_one_order hfloat htext hinteger
  have hfirst : compare .lessEqual (.float (0.1 + 0.2)) (.text "0.3") = true := by
    rw [heither, hequal, Bool.or_true]
  exact ⟨hfloat, htext, hinteger, hequal, hmost, htrans .lessEqual (by simp) hfirst hmost⟩

end Value

/-! ### The text of an integer -/

theorem decimal_of_numeral (n : Int64) : ∃ d, (Value.text (toString n.toInt)).toDecimal? = some d ∧
    d.coefficient = nearestInteger n.toInt ∧ d.scale = 0 := by
  have hlow := Int64.le_toInt n
  have hhigh := Int64.toInt_lt n
  have hlog := log_of_int64 n
  have hread : (Value.text (toString n.toInt)).toNumber? = some (Float.ofInt n.toInt) := by
    change (readFloat? (trim (numeral n.toInt))).filter Float.isFinite = _
    rw [trim_numeral, readFloat_numeral, Option.filter_some, if_pos (isFinite_ofInt (by omega))]
  have hroom : (nearestInteger n.toInt).natAbs < Nat.pow 2 96 := by
    have hnear : nearestPrecise n.toInt.natAbs ≤ 2 ^ 63 := nearest_le (by omega)
    rw [natAbs_nearest]
    exact Nat.lt_of_le_of_lt hnear (by decide)
  refine ⟨⟨nearestInteger n.toInt, 0, hroom, by decide⟩, ?_, rfl, rfl⟩
  rw [Value.toDecimal?, hread, Option.bind_some, Decimal.ofFloat_ofInt (by omega)]
  exact dif_pos ⟨hroom, by decide⟩

namespace Value

/-- The text of an integer compares as the nearest integer of 53 binary places; and as the integer itself,
in all comparisons with integers, exactly if it has no more places. -/
theorem numeral_compares_as_nearest (n : Int64) :
    Precise (nearestInteger n.toInt).natAbs ∧
    (∀ y : Int, Precise y.natAbs →
      (nearestInteger n.toInt - n.toInt).natAbs ≤ (y - n.toInt).natAbs) ∧
    (∀ (op : CompareOp) (m : Int64), compare op (.text (toString n.toInt)) (.integer m) =
      op.holds (Ord.compare (nearestInteger n.toInt) m.toInt)) ∧
    ((∀ (op : CompareOp) (m : Int64), compare op (.text (toString n.toInt)) (.integer m) =
      op.holds (Ord.compare n.toInt m.toInt)) ↔ Precise n.toInt.natAbs) := by
  have hcompares : ∀ (op : CompareOp) (m : Int64), compare op (.text (toString n.toInt)) (.integer m) =
      op.holds (Ord.compare (nearestInteger n.toInt) m.toInt) := by
    intro op m
    obtain ⟨d, hd, hcoefficient, hscale⟩ := decimal_of_numeral n
    rw [compare_decimals op hd rfl, Decimal.compare_unscaled hscale rfl, hcoefficient]
    rfl
  refine ⟨?_, fun y => nearestInteger_nearest n.toInt, hcompares, ?_⟩
  · rw [natAbs_nearest]
    exact precise_nearest _
  · rw [← nearestInteger_eq_iff]
    constructor
    · -- the integer with the same digits tells the two apart
      intro h
      have hequal := (hcompares .equal n).symm.trans (h .equal n)
      simpa [CompareOp.holds] using hequal
    · intro h op m
      rw [hcompares op m, h]

end Value

end EventRules
