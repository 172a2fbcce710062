import EventRules.Lowering.Basic

/-!
Arguments of calls: conditions, and literals or constants that say how many, how long or which.
-/

namespace EventRules.Lowering
set_option autoImplicit false

open Routine

/-- An argument of a call, as it is written and as it is lowered. -/
structure Operand where
  expr : Expr
  lower : Lower Code

abbrev OperandCall := Call Operand

def fault (c : OperandCall) (f : ArgumentFault) : LoweringError := .argument c.name f

/-- Expressions that say something about the value under test. -/
def isCondition : Expr → Bool
  | .compare _ _ | .range _ _ _ _ | .lambda _ _ | .call _ | .chain _ | .arrow _ => true
  | .scalar literal _ => match literal with
    | .boolean _ => true
    | _ => false
  | .binary op _ _ => op.isLogical || op.isComparison
  | .unary op _ => op == .not
  | .ident _ => false

def condition (c : OperandCall) (operand : Operand) : Lower Code := do
  if !isCondition operand.expr then fail (fault c (.notCondition operand.expr.shown))
  operand.lower

/-- What a literal or a constant says as an argument. -/
inductive Amount where
  | integer (n : Int64)
  | duration (ms : Int64)
  | other

namespace Amount

def ofLiteral : Literal → Amount
  | .integer n => integer n
  | .duration ms => duration ms
  | _ => other

/-- A constant is no duration: the number of milliseconds is an integer. -/
def ofValue : Value → Amount
  | .integer n => integer n
  | _ => other

end Amount

def amount (scope : Scope) (c : OperandCall) (e : Expr) : Except LoweringError Amount :=
  match e with
  | .scalar literal _ => .ok (.ofLiteral literal)
  | .ident name =>
    match scope.constants.get? name.text with
    | some v => .ok (.ofValue v)
    | none => .error (.undefined name)
  | _ => .error (fault c (.notConstant e.shown))

def integerArgument (scope : Scope) (c : OperandCall) (e : Expr) : Except LoweringError Int64 := do
  match ← amount scope c e with
  | .integer n => return n
  | _ => throw (fault c (.notInteger e.shown))

def countArgument (scope : Scope) (c : OperandCall) (e : Expr) : Except LoweringError Nat := do
  match ← amount scope c e with
  | .integer n => if 0 < n then return n.toInt.toNat else throw (fault c (.countNotPositive n))
  | _ => throw (fault c (.notCount e.shown))

/-- An integer counts as milliseconds. -/
def durationArgument (scope : Scope) (c : OperandCall) (e : Expr) : Except LoweringError Int64 := do
  match ← amount scope c e with
  | .integer ms | .duration ms =>
    if 0 < ms then return ms else throw (fault c (.durationNotPositive ms))
  | .other => throw (fault c (.notDuration e.shown))

/-- An integer is a number of events, a duration a time. -/
def extentArgument (scope : Scope) (c : OperandCall) (e : Expr) :
    Except LoweringError Chain.Extent := do
  match ← amount scope c e with
  | .integer n => if 0 < n then return .count n.toInt.toNat else throw (fault c (.notPositive e.shown))
  | .duration ms => if 0 < ms then return .duration ms else throw (fault c (.notPositive e.shown))
  | .other => throw (fault c (.notExtent e.shown))

end EventRules.Lowering
