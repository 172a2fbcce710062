import EventRules.Rule.Operator
import EventRules.Value.Basic

/-!
Comparing values. Where both sides have a decimal, the decimals are compared, so that `0.1 + 0.2`
equals `0.3`; numbers without one are compared as floats; what is not a number has equality only.
-/

namespace EventRules.Value
set_option autoImplicit false

open Number

/-- The order of two floats, if neither is outside the numbers. -/
def floatOrder? (x y : Float) : Option Ordering :=
  if x < y then some .lt else if y < x then some .gt else if x == y then some .eq else none

def looseEq (left right : Value) : Bool :=
  match left, right with
  | .boolean a, .boolean b => a == b
  | .null, .null => true
  | _, _ =>
    match left.toNumber?, right.toNumber? with
    | some a, some b =>
      match left.toDecimal?, right.toDecimal? with
      | some da, some db => da.compare db == .eq
      | _, _ => a == b
    | _, _ => left.asText == right.asText

/-- The order of two values, if both read as numbers. -/
def looseCompare? (left right : Value) : Option Ordering :=
  match left.toDecimal?, right.toDecimal? with
  | some da, some db => some (da.compare db)
  | _, _ =>
    match left.toNumber?, right.toNumber? with
    | some a, some b => floatOrder? a b
    | _, _ => none

/-- An ordering of something that is not a number is false. -/
def compare (op : CompareOp) (left right : Value) : Bool :=
  match op with
  | .equal => looseEq left right
  | .notEqual => !looseEq left right
  | op => (looseCompare? left right).any op.holds

variable {a b : Value} {x y : Decimal}

theorem toNumber_of_toDecimal (h : a.toDecimal? = some x) : ∃ f, a.toNumber? = some f := by
  cases a with
  | null => cases h
  | boolean b => cases h
  | integer n => exact ⟨_, rfl⟩
  | float f => exact ⟨_, rfl⟩
  | text s =>
    obtain ⟨f, hf, -⟩ := Option.bind_eq_some_iff.mp h
    exact ⟨f, hf⟩

theorem looseEq_decimals (ha : a.toDecimal? = some x) (hb : b.toDecimal? = some y) :
    looseEq a b = (x.compare y == .eq) := by
  obtain ⟨f, hf⟩ := toNumber_of_toDecimal ha
  obtain ⟨g, hg⟩ := toNumber_of_toDecimal hb
  unfold looseEq
  split
  · cases ha
  · cases ha
  · rw [hf, hg, ha, hb]

/-- Equality and order are asked of the same two decimals. -/
theorem compare_decimals (op : CompareOp) (ha : a.toDecimal? = some x) (hb : b.toDecimal? = some y) :
    compare op a b = op.holds (x.compare y) := by
  have horder : (looseCompare? a b).any op.holds = op.holds (x.compare y) := by
    rw [looseCompare?, ha, hb]
    rfl
  cases op with
  | equal => exact looseEq_decimals ha hb
  | notEqual => exact congrArg Bool.not (looseEq_decimals ha hb)
  | _ => exact horder

end EventRules.Value
