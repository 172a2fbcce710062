import EventRules.Rule.Parser.Expression

/-!
The grammar of expressions where it tries and climbs. An opening parenthesis may begin an anonymous function:
its parameters are read, and the parser goes back if they are none. Binary operators are read level by level:
a level reads the next one, and then its own operators with the next level behind each. What is behind the
last level is an operand. `Parse.parenthesised` looks ahead for the parameters instead, and `Parse.expression`
passes all operands and groups them afterwards; both read the same.
-/

namespace EventRules.Parse
set_option autoImplicit false

open Routine

/-- A name, and what `rest` reads behind a comma that follows it. -/
def nameThen (rest : Parse (List Token)) : Parse (List Token) := do
  if ← sees Token.isName then
    let name ← advance
    if ← sees (·.isOperator ",") then
      let _ ← advance
      let others ← rest
      return name :: others
    else return [name]
  else return []

def namesUpTo : (rounds : Nat) → Parse (List Token)
  | 0 => return []
  | rounds + 1 => nameThen (namesUpTo rounds)

/-- Names separated by commas. Each of them is a token ahead. -/
def names : Parse (List Token) := do
  let p ← state
  namesUpTo p.ahead.length

/-- The end of `( name , … ) ->`, behind the names. -/
def arrowBehind (params : List Token) : Parse (Option (List Token)) := do
  if ← sees (·.isBracket ")") then
    let _ ← advance
    if ← sees (·.isOperator "->") then
      let _ ← advance
      return some params
    else return none
  else return none

/-- The parameters of `( name , … ) ->`, if these tokens are what stands here. -/
def lambdaParameters : Parse (Option (List Token)) := do
  if ← sees (·.isBracket "(") then
    let _ ← advance
    arrowBehind (← names)
  else return none

/-- What an opening parenthesis begins: an anonymous function, a range or an expression, tried in that
order. -/
def parenthesisedByTrial (nested : Parse Expr) : Parse Expr := do
  match ← attempt lambdaParameters with
  | some params =>
    let body ← withTable .standard nested
    return .lambda params body
  | none =>
    let p ← state
    if Token.startsRange p.ahead then range nested
    else
      let opening ← advance
      let inner ← nested
      let _ ← expectClosing (·.isBracket ")") opening
      return inner

/-- The current token is an operator of level `k`. -/
def atLevel (k : Nat) (p : Parser) : Bool :=
  p.current.kind == .operator && p.table.contains k p.current.text

/-- Joins an operator of level `k` and what `tighter` reads behind it to what stands on its left, and goes on
with `rest`; without such an operator the left side is all. -/
def operatorThen (k : Nat) (tighter : Parse Expr) (rest : Expr → Parse Expr) (left : Expr) : Parse Expr := do
  let p ← state
  if atLevel k p then
    match BinaryOp.ofSymbol? p.current.text with
    | none => unexpected .binaryOperator
    | some op =>
      let _ ← advance
      let right ← tighter
      rest (.binary op left right)
  else return left

def operatorsUpTo (k : Nat) (tighter : Parse Expr) : (rounds : Nat) → Expr → Parse Expr
  | 0, left => return left
  | rounds + 1, left => operatorThen k tighter (operatorsUpTo k tighter rounds) left

/-- The operators of level `k` behind what stands on their left. Each of them is a token ahead. -/
def operators (k : Nat) (tighter : Parse Expr) (left : Expr) : Parse Expr := do
  let p ← state
  operatorsUpTo k tighter p.ahead.length left

/-- Level `k`, with `count - 1` levels behind it. -/
def levelsFrom (nested : Parse Expr) : (count k : Nat) → Parse Expr
  | 0, _ => operand nested
  | count + 1, k => do
    let left ← levelsFrom nested count (k + 1)
    operators k (levelsFrom nested count (k + 1)) left

/-- Level `k` of the table, or an operand if that has none. -/
def level (nested : Parse Expr) (k : Nat) : Parse Expr := do
  let p ← state
  levelsFrom nested (p.table.levels.length - k) k

/-- An expression whose parts nest at most `depth` deep. -/
def nestedClimb : (depth : Nat) → Parse Expr
  | 0 => unexpected .expression
  | depth + 1 => level (nestedClimb depth) 0

/-- An expression. -/
def climb : Parse Expr := do
  let p ← state
  nestedClimb (weight p.ahead + 1)

/-- One expression and nothing behind it. -/
def wholeClimb : Parse Expr := do
  let e ← climb
  expectEnd
  return e

end EventRules.Parse
