import EventRules.Proofs.Lowering.Constancy
import EventRules.Proofs.Lowering.Twin

/-!
# Bounds of ranges

The bounds of a range that is lowered have a numeric type. Calculating gives numbers, or it fails; so a
bound is calculated to a number exactly where it names no parameter, its calculation does not fail, and
it is neither a negation nor a name for text that has more digits than a number.
-/

namespace EventRules
set_option autoImplicit false

open Routine

theorem ok_of_bind {ε α β : Type} {r : Except ε α} {f : α → Except ε β} {b : β}
    (h : (r >>= f) = .ok b) : ∃ a, r = .ok a ∧ f a = .ok b := by
  cases r with
  | error e => cases h
  | ok a => exact ⟨a, rfl, h⟩

theorem ok_of_mapError {ε ε' α : Type} {r : Except ε α} {f : ε → ε'} {a : α}
    (h : r.mapError f = .ok a) : r = .ok a := by
  cases r with
  | error e => cases h
  | ok b => exact congrArg Except.ok (Except.ok.inj h)

/-! ### Results of calculations -/

namespace Value

open Number

theorem number_of_numeric {v : Value} (h : v.isNumeric = true) : v.toNumber?.isSome = true := by
  cases v with
  | integer n => rfl
  | float x => rfl
  | _ => cases h

theorem ofDecimal_numeric (d : Decimal) : (ofDecimal d).isNumeric = true := by
  unfold ofDecimal
  split
  · split <;> rfl
  · rfl

theorem floatArithmetic_numeric (op : BinaryOp) (a b : Decimal) :
    (floatArithmetic op a b).isNumeric = true := by
  unfold floatArithmetic
  dsimp only
  split
  · exact ofDecimal_numeric _
  · rfl

theorem finished_numeric {op : BinaryOp} {a b : Decimal} {calculated : Option Decimal} {v : Value}
    (h : (match calculated with
      | some d => (.ok (ofDecimal d) : Except CalculationError Value)
      | none => .ok (floatArithmetic op a b)) = .ok v) : v.isNumeric = true := by
  split at h
  · obtain rfl := Except.ok.inj h
    exact ofDecimal_numeric _
  · obtain rfl := Except.ok.inj h
    exact floatArithmetic_numeric op a b

theorem decimalArithmetic_numeric {op : BinaryOp} {a b : Decimal} {v : Value}
    (h : decimalArithmetic op a b = .ok v) : v.isNumeric = true := by
  cases op with
  | add => exact finished_numeric h
  | subtract => exact finished_numeric h
  | multiply => exact finished_numeric h
  | divide =>
    rw [decimalArithmetic] at h
    split at h
    · cases h
    · exact finished_numeric h
  | _ => cases h

theorem fitted_numeric {n : Int} {v : Value}
    (h : (match fit64? n with
      | some n => IntegerResult.done (.integer n)
      | none => .elsewhere) = .done v) : v.isNumeric = true := by
  split at h
  · cases h
    rfl
  · cases h

theorem integerArithmetic_numeric {op : BinaryOp} {a b : Int64} {v : Value}
    (h : integerArithmetic op a b = .done v) : v.isNumeric = true := by
  cases op with
  | add => exact fitted_numeric h
  | subtract => exact fitted_numeric h
  | multiply => exact fitted_numeric h
  | divide =>
    simp only [integerArithmetic] at h
    split at h
    · cases h
    · split at h
      · exact fitted_numeric h
      · cases h
        rfl
  | _ => cases h

theorem decimals_numeric (op : BinaryOp) (left right : Value) {v : Value}
    (h : (match left.toDecimal?, right.toDecimal? with
      | some a, some b => decimalArithmetic op a b
      | _, _ => .error (.notNumbers op left right)) = .ok v) : v.isNumeric = true := by
  split at h
  · exact decimalArithmetic_numeric h
  · cases h

theorem arithmetic_numeric {op : BinaryOp} {left right v : Value}
    (h : arithmetic op left right = .ok v) : v.isNumeric = true := by
  unfold arithmetic at h
  dsimp only at h
  split at h
  · split at h
    · obtain rfl := Except.ok.inj h
      exact integerArithmetic_numeric ‹_›
    · cases h
    · exact decimals_numeric op (.integer _) (.integer _) h
  · exact decimals_numeric op left right h

theorem bitwise_integer {op : BinaryOp} {left right v : Value} (h : bitwise op left right = .ok v) :
    left.isInteger = true ∧ right.isInteger = true ∧ v.isInteger = true := by
  unfold bitwise at h
  split at h
  · dsimp only at h
    split at h
    · obtain rfl := Except.ok.inj h
      exact ⟨rfl, rfl, rfl⟩
    · cases h
  · cases h

theorem arithmetic_operands {op : BinaryOp} {left right v : Value}
    (h : arithmetic op left right = .ok v) :
    (∀ b, left ≠ .boolean b) ∧ ∀ b, right ≠ .boolean b := by
  refine ⟨?_, ?_⟩
  · rintro b rfl
    simp [arithmetic, toDecimal?] at h
  · rintro b rfl
    simp [arithmetic, toDecimal?] at h

/-- An operator that calculates makes numbers, and not of truth values. -/
theorem calculated_numeric {op : BinaryOp} {left right v : Value} (hop : op.calculates = true)
    (h : binary op left right = .ok v) :
    v.isNumeric = true ∧ (∀ b, left ≠ .boolean b) ∧ ∀ b, right ≠ .boolean b := by
  have hcases : bitwise op left right = .ok v ∨ arithmetic op left right = .ok v := by
    cases op with
    | and => cases hop
    | or => cases hop
    | compare c => cases hop
    | add => exact .inr h
    | subtract => exact .inr h
    | multiply => exact .inr h
    | divide => exact .inr h
    | _ => exact .inl h
  rcases hcases with h | h
  · obtain ⟨hl, hr, hv⟩ := bitwise_integer h
    refine ⟨?_, ?_, ?_⟩
    · cases v with
      | integer n => rfl
      | _ => cases hv
    · rintro b rfl
      cases hl
    · rintro b rfl
      cases hr
  · exact ⟨arithmetic_numeric h, arithmetic_operands h⟩

end Value

/-! ### Types of expressions -/

theorem ValueType.ofNumeral_numeric {cs : List Char} {t : ValueType} (h : ofNumeral? cs = some t) :
    t.isNumeric = true := by
  unfold ofNumeral? at h
  extract_lets unsigned at h
  clear_value unsigned
  split at h
  · exact absurd h (Option.some_ne_none t).symm
  · split at h
    · obtain rfl := Option.some.inj h
      rfl
    · split at h
      · obtain rfl := Option.some.inj h
        rfl
      · exact absurd h (Option.some_ne_none t).symm
    · exact absurd h (Option.some_ne_none t).symm

/-- The operators that calculate are those with a number as their result. -/
theorem BinaryOp.calculates_of_type {op : BinaryOp} {l r t : ValueType} (h : op.type? l r = some t) :
    op.calculates = t.isNumeric := by
  cases op with
  | compare c =>
    rw [type?] at h
    split at h
    · cases h
      rfl
    · cases h
  | _ => cases l <;> cases r <;> cases h <;> rfl

namespace Expr

variable {constants : Keyed Value} {t : ValueType}

theorem type_binary {op : BinaryOp} {left right : Expr}
    (h : (binary op left right).type constants = .ok t) :
    ∃ l r, left.type constants = .ok l ∧ right.type constants = .ok r ∧ op.type? l r = some t := by
  rw [type] at h
  obtain ⟨l, hl, h⟩ := ok_of_bind h
  obtain ⟨r, hr, h⟩ := ok_of_bind h
  refine ⟨l, r, hl, hr, ?_⟩
  split at h
  · rename_i t' htype
    obtain rfl := Except.ok.inj h
    exact htype
  · cases h

theorem type_unary {op : UnaryOp} {operand : Expr} (h : (unary op operand).type constants = .ok t) :
    operand.type constants = .ok .integer ∧ t = .integer := by
  rw [type] at h
  obtain ⟨u, hu, h⟩ := ok_of_bind h
  cases u with
  | integer => exact ⟨hu, (Except.ok.inj h).symm⟩
  | _ => cases h

theorem constant_of_type {e : Expr} (h : e.type constants = .ok t) : Lowering.isConstant e = true := by
  induction e using Expr.induct generalizing t with
  | scalar value token => rfl
  | ident name => rfl
  | binary op left right ihl ihr =>
    obtain ⟨l, r, hl, hr, -⟩ := type_binary h
    rw [Lowering.isConstant, ihl hl, ihr hr]
    rfl
  | unary op operand ih => exact ih (type_unary h).1
  | _ => cases h

theorem numeric_of_ident {name : Token} (h : (ident name).type constants = .ok t) :
    t.isNumeric = true := by
  rw [type] at h
  split at h
  · cases h
  · split at h
    · obtain rfl := Except.ok.inj h
      exact ValueType.ofNumeral_numeric ‹_›
    · cases h

end Expr

/-! ### Values of typed expressions -/

namespace Lowering

variable {scope : Scope} {e : Expr} {o u : Output} {code : Code} {t : ValueType}

section

variable {call : String → Nat → Frame → Run Bool} {subject : Value} {frame : Frame} {s : Session}

/-- An operator that does not calculate makes truth values. -/
theorem boolean_of_value {op : BinaryOp} {left right : Code} {v : Value} (hop : op.calculates = false)
    (h : (((Code.binary op left right).evaluate call subject frame).run s).1 = .ok v) :
    ∃ b, v = .boolean b := by
  cases op with
  | and =>
    obtain ⟨a, s', -, h⟩ := bind_ok (Prod.ext h rfl)
    cases ha : a.asBool with
    | false =>
      rw [ha] at h
      cases h
      exact ⟨_, rfl⟩
    | true =>
      rw [ha] at h
      obtain ⟨b, s'', -, h⟩ := bind_ok h
      cases h
      exact ⟨_, rfl⟩
  | or =>
    obtain ⟨a, s', -, h⟩ := bind_ok (Prod.ext h rfl)
    cases ha : a.asBool with
    | false =>
      rw [ha] at h
      obtain ⟨b, s'', -, h⟩ := bind_ok h
      cases h
      exact ⟨_, rfl⟩
    | true =>
      rw [ha] at h
      cases h
      exact ⟨_, rfl⟩
  | compare c =>
    obtain ⟨a, s', -, h⟩ := bind_ok (Prod.ext h rfl)
    obtain ⟨b, s'', -, h⟩ := bind_ok h
    cases h
    exact ⟨_, rfl⟩
  | _ => cases hop

theorem boolean_of_type (ht : e.type scope.constants = .ok .boolean)
    (h : (lower scope e).run o = (.ok code, u)) {v : Value}
    (hv : ((code.evaluate call subject frame).run s).1 = .ok v) : ∃ b, v = .boolean b := by
  cases e with
  | scalar value token =>
    rw [lower] at h
    cases h
    obtain rfl := Except.ok.inj hv
    cases value with
    | boolean b => exact ⟨b, rfl⟩
    | _ => cases ht
  | ident name => cases Expr.numeric_of_ident ht
  | binary op left right =>
    obtain ⟨lt, rt, -, -, hop⟩ := Expr.type_binary ht
    obtain ⟨l, r, u', -, -, rfl⟩ := lower_binary h
    exact boolean_of_value (BinaryOp.calculates_of_type hop) hv
  | unary op operand => cases (Expr.type_unary ht).2
  | _ => cases ht

/-- An operator that calculates evaluates both of its operands. -/
theorem operands_of_value {op : BinaryOp} {left right : Code} {v : Value} (hop : op.calculates = true)
    (h : (((Code.binary op left right).evaluate call subject frame).run s).1 = .ok v) :
    ∃ a b s', (left.evaluate call subject frame).run s = (.ok a, s') ∧
      ((right.evaluate call subject frame).run s').1 = .ok b ∧ Value.binary op a b = .ok v := by
  have hsequence : ((left.evaluate call subject frame >>= fun a =>
      right.evaluate call subject frame >>= fun b => Run.calculate (Value.binary op a b)).run s).1 =
        .ok v := by
    cases op with
    | and => cases hop
    | or => cases hop
    | _ => exact h
  obtain ⟨a, s', ha, h⟩ := bind_ok (Prod.ext hsequence rfl)
  obtain ⟨b, s'', hb, h⟩ := bind_ok h
  exact ⟨a, b, s', ha, congrArg Prod.fst hb, calculated_ok (congrArg Prod.fst h)⟩

/-- A truth value among the operands would make the calculation fail, so there are logical operators
nowhere, and all that evaluation needs is calculated. -/
theorem fold_of_type (ht : e.type scope.constants = .ok t) (hn : t.isNumeric = true)
    (h : (lower scope e).run o = (.ok code, u)) (hfixes : scope.Fixes e)
    (hv : code.HasValue call subject frame s) : ∃ v, code.fold? = some v := by
  induction e using Expr.induct generalizing o u code t s with
  | scalar value token =>
    rw [lower] at h
    cases h
    exact ⟨_, rfl⟩
  | ident name =>
    rcases lower_ident h with ⟨hp, -⟩ | ⟨-, v, -, rfl⟩
    · exact absurd hp (fixes_ident.mp hfixes)
    · exact ⟨v, rfl⟩
  | binary op left right ihl ihr =>
    obtain ⟨lt, rt, hlt, hrt, hop⟩ := Expr.type_binary ht
    obtain ⟨l, r, u', hl, hr, rfl⟩ := lower_binary h
    obtain ⟨hfl, hfr⟩ := fixes_binary.mp hfixes
    have hcalculates : op.calculates = true := (BinaryOp.calculates_of_type hop).trans hn
    obtain ⟨v, hvalue⟩ := id hv
    obtain ⟨a, b, s', ha, hb, hab⟩ := operands_of_value hcalculates hvalue
    obtain ⟨-, hnotl, hnotr⟩ := Value.calculated_numeric hcalculates hab
    have hnl : lt.isNumeric = true := by
      cases lt with
      | boolean =>
        obtain ⟨x, rfl⟩ := boolean_of_type hlt hl (congrArg Prod.fst ha)
        exact absurd rfl (hnotl x)
      | _ => rfl
    have hnr : rt.isNumeric = true := by
      cases rt with
      | boolean =>
        obtain ⟨x, rfl⟩ := boolean_of_type hrt hr hb
        exact absurd rfl (hnotr x)
      | _ => rfl
    obtain ⟨a', ha'⟩ := ihl hlt hnl hl hfl ⟨a, congrArg Prod.fst ha⟩
    obtain ⟨b', hb'⟩ := ihr hrt hnr hr hfr ⟨b, hb⟩
    exact hv.fold_binary ha' hb'
  | unary op operand ih =>
    obtain ⟨hto, rfl⟩ := Expr.type_unary ht
    obtain ⟨c, hc, rfl⟩ := lower_unary h
    have hfo := fixes_unary.mp hfixes
    cases op with
    | not =>
      obtain ⟨w, hw⟩ := ih hto rfl hc hfo hv.not_operand
      exact ⟨.boolean !w.asBool, by rw [UnaryOp.code, Code.fold?, hw]; rfl⟩
    | increment =>
      obtain ⟨w, hw⟩ := ih hto rfl hc hfo hv.step_operand
      exact hv.fold_step hw
    | decrement =>
      obtain ⟨w, hw⟩ := ih hto rfl hc hfo hv.step_operand
      exact hv.fold_step hw
  | _ => cases ht

end

/-- A negation is no number, and the text of a constant may be one too large. -/
def Scope.IsNumerical (scope : Scope) : Expr → Prop
  | .unary .not _ => False
  | .ident name => ∀ v, scope.constants.get? name.text = some v → v.toNumber?.isSome = true
  | _ => True

theorem number_iff_numerical (ht : e.type scope.constants = .ok t) (hn : t.isNumeric = true)
    (h : (lower scope e).run o = (.ok code, u)) {v : Value} (hv : code.fold? = some v) :
    v.toNumber?.isSome = true ↔ scope.IsNumerical e := by
  cases e with
  | scalar value token =>
    rw [lower] at h
    cases h
    obtain rfl := Option.some.inj hv
    cases value with
    | integer n => exact iff_of_true rfl trivial
    | float x => exact iff_of_true rfl trivial
    | boolean b =>
      cases ht
      cases hn
    | _ => cases ht
  | ident name =>
    rcases lower_ident h with ⟨-, rfl⟩ | ⟨-, w, hw, rfl⟩
    · cases hv
    · obtain rfl := Option.some.inj hv
      simp only [Scope.IsNumerical, hw, Option.some.injEq, forall_eq']
  | binary op left right =>
    obtain ⟨lt, rt, -, -, hop⟩ := Expr.type_binary ht
    obtain ⟨l, r, u', -, -, rfl⟩ := lower_binary h
    obtain ⟨a, b, -, -, hab⟩ := Code.fold_binary hv
    have hcalculated := Value.calculated_numeric ((BinaryOp.calculates_of_type hop).trans hn) hab
    exact iff_of_true (Value.number_of_numeric hcalculated.1) trivial
  | unary op operand =>
    obtain ⟨c, -, rfl⟩ := lower_unary h
    cases op with
    | not =>
      obtain ⟨w, -, rfl⟩ := Option.map_eq_some_iff.mp hv
      exact iff_of_false Bool.false_ne_true id
    | _ =>
      obtain ⟨w, -, hw⟩ := Option.bind_eq_some_iff.mp hv
      exact iff_of_true (Value.number_of_numeric (Value.arithmetic_numeric (ok_of_toOption hw))) trivial
  | _ => cases ht

theorem bound_literal_iff {v : Value} : bound code = .literal v ↔ code.fold? = some v := by
  rw [bound]
  cases h : code.fold? with
  | none =>
    refine iff_of_false ?_ (by simp)
    rintro rfl
    cases h
  | some w => simp

/-! ### Ranges -/

/-- A range between values evaluates to the conjunction of its comparisons. -/
theorem run_range (lowerOp upperOp : CompareOp) (a b subject : Value) (frame : Frame) (s : Session) :
    (evaluate (.binary .and (.compare lowerOp (.literal a)) (.compare upperOp (.literal b))) subject
      frame).run s =
        (.ok (.boolean (Value.compare lowerOp subject a && Value.compare upperOp subject b)), s) := by
  rw [evaluate, Code.evaluate, Code.evaluate, Code.evaluate, Code.evaluate, Code.evaluate]
  simp only [pure_then, Value.asBool, Value.isTruthy]
  cases Value.compare lowerOp subject a <;> rfl

/-- The bound is a value that reads as a number. -/
def IsNumber (c : Code) : Prop := ∃ v, c = .literal v ∧ v.toNumber?.isSome = true

theorem bound_number_iff (ht : e.type scope.constants = .ok t) (hn : t.isNumeric = true)
    (h : (lower scope e).run o = (.ok code, u)) (subject : Value) (frame : Frame) (s : Session) :
    IsNumber (bound code) ↔ scope.Fixes e ∧ scope.IsNumerical e ∧
      ∃ v, ((evaluate code subject frame).run s).1 = .ok v := by
  constructor
  · rintro ⟨v, hv, hnumber⟩
    have hfold := bound_literal_iff.mp hv
    refine ⟨?_, ?_, ?_⟩
    · exact (closed_iff_fixes (Expr.constant_of_type ht) h).mp (Code.closed_of_fold hfold)
    · exact (number_iff_numerical ht hn h hfold).mp hnumber
    · exact Code.hasValue_of_fold hfold
  · rintro ⟨hfixes, hnumerical, hvalue⟩
    obtain ⟨v, hfold⟩ := fold_of_type ht hn h hfixes hvalue
    exact ⟨v, bound_literal_iff.mpr hfold, (number_iff_numerical ht hn h hfold).mpr hnumerical⟩

theorem checkBounds_ok {opening closing : Token} {below above : Expr}
    (h : checkBounds scope opening below above closing = .ok ()) :
    ∃ t, below.type scope.constants = .ok t ∧ above.type scope.constants = .ok t ∧
      t.isNumeric = true := by
  rw [checkBounds] at h
  obtain ⟨l, hl, h⟩ := ok_of_bind h
  obtain ⟨u, hu, h⟩ := ok_of_bind h
  split at h
  · cases h
  · rename_i hboth
    simp only [Bool.or_eq_true, Bool.not_eq_true', bne_iff_ne, ne_eq, not_or, Bool.not_eq_false,
      not_not] at hboth
    obtain ⟨hn, rfl⟩ := hboth
    exact ⟨l, ok_of_mapError hl, ok_of_mapError hu, hn⟩

theorem lower_range {opening closing : Token} {below above : Expr}
    (h : (lower scope (.range opening below above closing)).run o = (.ok code, u)) :
    ∃ t low high, below.type scope.constants = .ok t ∧ above.type scope.constants = .ok t ∧
      t.isNumeric = true ∧ (lower scope below).run o = (.ok low, o) ∧
      (lower scope above).run o = (.ok high, o) ∧
      code = .binary .and (.compare opening.lowerOp (bound low)) (.compare closing.upperOp (bound high)) := by
  rw [lower] at h
  obtain ⟨⟨⟩, w, hcheck, h⟩ := bind_ok h
  obtain ⟨low, x, hlow, h⟩ := bind_ok h
  obtain ⟨high, y, hhigh, h⟩ := bind_ok h
  obtain ⟨t, hbelow, habove, hn⟩ := checkBounds_ok (congrArg Prod.fst hcheck)
  obtain rfl : o = w := congrArg Prod.snd hcheck
  obtain ⟨_, hl⟩ := lower_constant (Expr.constant_of_type hbelow)
  obtain ⟨_, hh⟩ := lower_constant (Expr.constant_of_type habove)
  obtain ⟨rfl, rfl⟩ := Prod.mk.inj ((hl o).symm.trans hlow)
  obtain ⟨rfl, rfl⟩ := Prod.mk.inj ((hh o).symm.trans hhigh)
  obtain ⟨hcode, -⟩ := Prod.mk.inj h
  exact ⟨t, low, high, hbelow, habove, hn, hlow, hhigh, (Except.ok.inj hcode).symm⟩

/-- The bounds of a range that is lowered are values that read as numbers exactly where they name no
parameter, are neither negations nor names for text too large for a number, and evaluate without an error.
Two bounds that are values take the value under test alone, and never fail. -/
theorem range_bounds {opening closing : Token} {below above : Expr}
    (h : (lower scope (.range opening below above closing)).run o = (.ok code, u)) :
    ∃ low high, (lower scope below).run o = (.ok low, o) ∧ (lower scope above).run o = (.ok high, o) ∧
      code = .binary .and (.compare opening.lowerOp (bound low))
        (.compare closing.upperOp (bound high)) ∧
      ∀ subject frame s,
        (IsNumber (bound low) ↔ (∀ name ∈ below.variables, scope.parameter ≠ some name) ∧
          scope.IsNumerical below ∧ ∃ v, ((evaluate low subject frame).run s).1 = .ok v) ∧
        (IsNumber (bound high) ↔ (∀ name ∈ above.variables, scope.parameter ≠ some name) ∧
          scope.IsNumerical above ∧ ∃ v, ((evaluate high subject frame).run s).1 = .ok v) ∧
        ∀ a b, bound low = .literal a → bound high = .literal b →
          (evaluate code subject frame).run s = (.ok (.boolean
            (Value.compare opening.lowerOp subject a && Value.compare closing.upperOp subject b)), s) := by
  obtain ⟨t, low, high, hbelow, habove, hn, hlow, hhigh, rfl⟩ := lower_range h
  refine ⟨low, high, hlow, hhigh, rfl, fun subject frame s => ⟨?_, ?_, ?_⟩⟩
  · exact bound_number_iff hbelow hn hlow subject frame s
  · exact bound_number_iff habove hn hhigh subject frame s
  · intro a b ha hb
    rw [ha, hb]
    exact run_range _ _ _ _ _ _ _

/-- The range `[v,10]`. -/
def rangeFromName : Expr :=
  .range ⟨.bracket, "[", .nowhere⟩ (.ident ⟨.name, "v", .nowhere⟩) (.scalar (.integer 10) default)
    ⟨.bracket, "]", .nowhere⟩

/-- Inside a function with the parameter `v`, a constant of that name lets the range pass. -/
theorem range_bounds_shadowed_constant :
    ∃ code low high,
      (lower ⟨Keyed.empty.put "v" (.integer 5), .empty, some "v"⟩ rangeFromName).run .empty =
        (.ok code, .empty) ∧
      code = .binary .and (.compare .greaterEqual (bound low)) (.compare .lessEqual (bound high)) ∧
      ¬ IsNumber (bound low) ∧ IsNumber (bound high) := by
  have hlower : (lower ⟨Keyed.empty.put "v" (.integer 5), .empty, some "v"⟩ rangeFromName).run .empty =
      (.ok (.binary .and (.compare .greaterEqual .subject)
        (.compare .lessEqual (.literal (.integer 10)))), .empty) := by rfl
  obtain ⟨low, high, -, hhigh, hcode, hbounds⟩ := range_bounds hlower
  obtain ⟨hlow, hhigh', -⟩ := hbounds .null ⟨⟨"", .null, 0⟩, none, [], .empty⟩ ⟨.empty, []⟩
  refine ⟨_, low, high, hlower, hcode, ?_, ?_⟩
  · intro hnumber
    exact (hlow.mp hnumber).1 "v" List.mem_cons_self rfl
  · cases hhigh
    exact hhigh'.mpr ⟨fun name hname => (List.not_mem_nil hname).elim, trivial, .integer 10, rfl⟩

end Lowering

end EventRules
