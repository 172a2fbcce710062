import EventRules.Value.Compare

/-!
Calculating with values. Integers stay integers while the result is one and fits; all else is
calculated in decimals, and in floats where a decimal does not fit.
-/

namespace EventRules
set_option autoImplicit false

inductive CalculationError where
  | divisionByZero
  | notIntegers (op : BinaryOp) (left right : Value)
  | outOfRange (op : BinaryOp) (left right : Int64)
  | notNumbers (op : BinaryOp) (left right : Value)
  | notArithmetic (op : BinaryOp)
deriving DecidableEq

def CalculationError.message : CalculationError → String
  | divisionByZero => "Division by zero"
  | notIntegers op l r =>
    s!"Type error: '{op.symbol}' needs integers, got {l.typeName} and {r.typeName}"
  | outOfRange op a b => s!"Type error: '{op.symbol}' out of range: {a.toInt} {op.symbol} {b.toInt}"
  | notNumbers op l r =>
    s!"Type error: Cannot apply '{op.symbol}' to {l.typeName} and {r.typeName}"
  | notArithmetic op => s!"Type error: '{op.symbol}' is not an arithmetic operator"

namespace Value

open Number

/-- The bits of `a` shifted by `by_`, if that is less than the width. -/
def shift? (op : Int64 → Int64 → Int64) (a by_ : Int64) : Option Int64 :=
  if 0 ≤ by_ ∧ by_ < 64 then some (op a by_) else none

def bitwise (op : BinaryOp) (left right : Value) : Except CalculationError Value :=
  match left, right with
  | .integer a, .integer b =>
    let result := match op with
      | .bitOr => some (a ||| b)
      | .bitXor => some (a ^^^ b)
      | .bitAnd => some (a &&& b)
      | .shiftLeft => shift? (· <<< ·) a b
      | .shiftRight => shift? (· >>> ·) a b
      | _ => none
    match result with
    | some n => .ok (.integer n)
    | none => .error (.outOfRange op a b)
  | _, _ => .error (.notIntegers op left right)

/-- A result of two integers, as far as integers can give it. -/
inductive IntegerResult where
  | done (v : Value)
  | zeroDivisor
  | elsewhere

/-- An inexact quotient is a float; a result out of range is left to the decimals. -/
def integerArithmetic (op : BinaryOp) (a b : Int64) : IntegerResult :=
  let fitted (n : Int) : IntegerResult := match fit64? n with
    | some n => .done (.integer n)
    | none => .elsewhere
  match op with
  | .add => fitted (a.toInt + b.toInt)
  | .subtract => fitted (a.toInt - b.toInt)
  | .multiply => fitted (a.toInt * b.toInt)
  | .divide =>
    if b = 0 then .zeroDivisor
    else if a.toInt.tmod b.toInt = 0 then fitted (a.toInt.tdiv b.toInt)
    else .done (.float (Float.ofInt a.toInt / Float.ofInt b.toInt))
  | _ => .elsewhere

/-- The result in floats, for decimals whose result does not fit. -/
def floatArithmetic (op : BinaryOp) (a b : Decimal) : Value :=
  let x := a.toFloat
  let y := b.toFloat
  let r := match op with
    | .add => x + y
    | .subtract => x - y
    | .multiply => x * y
    | _ => x / y
  match Decimal.ofFloat? r with
  | some d => ofDecimal d
  | none => .float r

def decimalArithmetic (op : BinaryOp) (a b : Decimal) : Except CalculationError Value :=
  let finish (exact : Option Decimal) : Except CalculationError Value :=
    match exact with
    | some d => .ok (ofDecimal d)
    | none => .ok (floatArithmetic op a b)
  match op with
  | .add => finish (a.add? b)
  | .subtract => finish (a.sub? b)
  | .multiply => finish (a.mul? b)
  | .divide => if b.isZero then .error .divisionByZero else finish (a.div? b)
  | _ => .error (.notArithmetic op)

def arithmetic (op : BinaryOp) (left right : Value) : Except CalculationError Value :=
  let inDecimals : Except CalculationError Value :=
    match left.toDecimal?, right.toDecimal? with
    | some a, some b => decimalArithmetic op a b
    | _, _ => .error (.notNumbers op left right)
  match left, right with
  | .integer a, .integer b =>
    match integerArithmetic op a b with
    | .done v => .ok v
    | .zeroDivisor => .error .divisionByZero
    | .elsewhere => inDecimals
  | _, _ => inDecimals

/-- Both operands are known: the logical operators read them as conditions. -/
def binary (op : BinaryOp) (left right : Value) : Except CalculationError Value :=
  match op with
  | .compare c => .ok (.boolean (compare c left right))
  | .and => .ok (.boolean (left.asBool && right.asBool))
  | .or => .ok (.boolean (left.asBool || right.asBool))
  | op => if op.isBitwise then bitwise op left right else arithmetic op left right

end Value

end EventRules
