import EventRules.Value.Arithmetic

/-!
Code: what an expression is compiled to. Memory between events is kept in fragments; code refers to a
fragment by its name and its place in the list of fragments.
-/

namespace EventRules
set_option autoImplicit false

inductive Code where
  | literal (v : Value)
  /-- the value under test -/
  | subject
  | binary (op : BinaryOp) (left right : Code)
  | not (inner : Code)
  /-- one more, or one less -/
  | step (up : Bool) (operand : Code)
  | compare (op : CompareOp) (operand : Code)
  | call (fragment : String) (index : Nat)
  /-- a filter of the host, asked about the event with the value under test -/
  | filter (extension : String)
deriving DecidableEq, Inhabited

namespace Code

def shown : Code → String
  | literal v => v.shown
  | subject => "value"
  | binary op left right => s!"({left.shown} {op.symbol} {right.shown})"
  | not inner => s!"(!{inner.shown})"
  | step up operand =>
    let sign := if up then "+" else "-"
    s!"({operand.shown} = {operand.shown} {sign} 1)"
  | compare op operand => s!"(value {op.symbol} {operand.shown})"
  | call fragment _ => s!"{fragment}()"
  | filter extension => s!"{extension}(event)"

def stepDelta (up : Bool) : Value := .integer (if up then 1 else -1)

/-- The value of code that depends on no event, if it can be calculated. -/
def fold? : Code → Option Value
  | literal v => some v
  | binary op left right =>
    match left.fold?, right.fold? with
    | some l, some r => (Value.binary op l r).toOption
    | _, _ => none
  | not inner => inner.fold?.map fun v => .boolean !v.asBool
  | step up operand => operand.fold?.bind fun v => (Value.arithmetic .add v (stepDelta up)).toOption
  | subject | compare _ _ | call _ _ | filter _ => none

end Code

/-- A test inside a chain: a condition, or an extension of the host. -/
inductive Test where
  | condition (code : Code)
  | extension (name : String)
deriving DecidableEq

end EventRules
