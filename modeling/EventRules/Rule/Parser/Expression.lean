import EventRules.Number.FloatRead
import EventRules.Rule.Parser.Basic

/-!
The grammar of expressions. Each construct is a step over `nested`, the step that reads an expression
inside it.
-/

namespace EventRules.Parse
set_option autoImplicit false

open Routine Number

/-- The current token as a literal. -/
def literalOf (t : Token) : Except ParseError Literal :=
  match t.kind with
  | .integer =>
    match (readInt? t.text.toList).bind fit64? with
    | some n => .ok (.integer n)
    | none => .error (.integerOutOfRange t)
  | .float =>
    match readFloat? t.text.toList with
    | some x => .ok (.float x)
    | none => .error (.invalidFloat t)
  | .boolean => .ok (.boolean (t.text == "true"))
  | .duration =>
    match t.milliseconds? with
    | some ms => .ok (.duration ms)
    | none => .error (.durationOutOfRange t)
  | _ => .ok (.text t.text)

def scalar : Parse Expr := do
  let token ← advance
  let value ← ofExcept (literalOf token)
  return .scalar value token

/-- The parameters of `( name , … ) ->` at the head of the tokens, and the number of these tokens. -/
def lambdaHead? (ts : List Token) : Option (List Token × Nat) :=
  match ts with
  | opening :: ts => if opening.isBracket "(" then (params ts).map fun (ps, n) => (ps, n + 1) else none
  | [] => none
where
  params (ts : List Token) : Option (List Token × Nat) :=
    match ts with
    | name :: separator :: rest =>
      if name.isName then
        if separator.isOperator "," then (params rest).map fun (ps, n) => (name :: ps, n + 2)
        else (close (separator :: rest)).map fun n => ([name], n + 1)
      else (close ts).map fun n => ([], n)
    | _ => none
  close (ts : List Token) : Option Nat :=
    match ts with
    | closing :: arrow :: _ => if closing.isBracket ")" && arrow.isOperator "->" then some 2 else none
    | _ => none

/-- Passes `n` tokens. -/
def skip : Nat → Parse Unit
  | 0 => pure ()
  | n + 1 => do
    let _ ← advance
    skip n

/-- Two bounds between brackets. -/
def range (nested : Parse Expr) : Parse Expr := do
  let opening ← advance
  let lower ← withTable .arithmetic nested
  let _ ← expectOperator ","
  let upper ← withTable .arithmetic nested
  let closing ← expectClosing (fun t => t.isBracket ")" || t.isBracket "]") opening
  return .range opening lower upper closing

/-- What an opening parenthesis begins: an anonymous function, a range or an expression. -/
def parenthesised (nested : Parse Expr) : Parse Expr := do
  let p ← state
  match lambdaHead? p.ahead with
  | some (params, n) =>
    skip n
    let body ← withTable .standard nested
    return .lambda params body
  | none =>
    if Token.startsRange p.ahead then range nested
    else
      let opening ← advance
      let inner ← nested
      let _ ← expectClosing (·.isBracket ")") opening
      return inner

/-- A comparison with the value under test. -/
def comparison (nested : Parse Expr) (op : CompareOp) : Parse Expr := do
  let _ ← advance
  if ← sees Token.isEnd then unexpected .operand
  let operand ← withTable .arithmetic nested
  return .compare op operand

def stage (nested : Parse Expr) : Parse (Stage Expr) := do
  let opening ← expectBracket "\x7b"
  let body ← withTable .standard nested
  let _ ← expectClosing (·.isBracket "\x7d") opening
  return ⟨opening, body⟩

/-- Stages joined by `->`. -/
def arrow (nested : Parse Expr) : Parse Expr := do
  let first ← stage nested
  let others ← many (·.isOperator "->") do
    let _ ← advance
    stage nested
  return .arrow (first :: others)

/-- Replaces the shorthand at the head of the tokens, `n` tokens and its closing one, by its arrow. -/
def expand (n : Nat) : Parse Unit :=
  change fun p => { p with
    ahead := Token.expandShorthand (p.ahead.take (n + 1)) ++ p.ahead.drop (n + 1) }

/-- Passes a `!` that is written directly behind a name and before a parenthesis. -/
def strictMarker (name : Token) : Parse Bool := do
  let p ← state
  if p.current.isOperator "!" && p.current.position.offset == name.endOffset
      && (p.peek 1).isBracket "(" then
    let _ ← advance
    return true
  else return false

/-- The arguments of a call, from its opening parenthesis on. -/
def arguments (nested : Parse Expr) (name : Token) (strict : Bool) : Parse (Call Expr) := do
  let argument := withTable .standard nested
  let opening ← expectBracket "("
  let args ← if ← sees (·.isBracket ")") then pure [] else do
    let first ← argument
    let others ← many (·.isOperator ",") do
      let _ ← advance
      argument
    pure (first :: others)
  let _ ← expectClosing (·.isBracket ")") opening
  return ⟨name, strict, args⟩

/-- A call behind a point. -/
def chainElement (nested : Parse Expr) : Parse (Call Expr) := do
  let _ ← advance
  let name ← current
  if !name.isName then fail (.chainElementMissing name)
  let _ ← advance
  let strict ← strictMarker name
  if !(← sees (·.isBracket "(")) then fail (.chainElementNotCalled name)
  arguments nested name strict

/-- What a name begins: a variable, a call or a chain of calls. -/
def named (nested : Parse Expr) : Parse Expr := do
  let name ← advance
  let strict ← strictMarker name
  if ← sees (·.isBracket "(") then
    let first ← arguments nested name strict
    let others ← many (·.isOperator ".") (chainElement nested)
    return if others.isEmpty then .call first else .chain (first :: others)
  else return .ident name

/-- What an operator in front of an operand begins: a shorthand or a comparison. -/
def symbolic (nested : Parse Expr) (token : Token) : Parse Expr := do
  let p ← state
  match Token.shorthandEnd? p.ahead with
  | some n =>
    expand n
    arrow nested
  | none =>
    match CompareOp.ofSymbol? token.text with
    | some op => comparison nested op
    | none => unexpected .expression

def primary (nested : Parse Expr) : Parse Expr := do
  let token ← current
  match token.kind with
  | .bracket =>
    if token.text = "[" then range nested
    else if token.text = "(" then parenthesised nested
    else if token.text = "\x7b" then arrow nested
    else unexpected .expression
  | .operator => symbolic nested token
  | .name => named nested
  | .keyword | .endOfInput => unexpected .expression
  | _ => scalar

def unaryOp? (t : Token) : Option UnaryOp :=
  if t.kind = .operator then UnaryOp.ofSymbol? t.text else none

/-- An operand with the unary operators in front of it. -/
def operand (nested : Parse Expr) : Parse Expr := do
  let symbols ← many (fun t => (unaryOp? t).isSome) advance
  let inner ← primary nested
  return (symbols.filterMap unaryOp?).foldr Expr.unary inner

/-- The level of the current token, if it is an operator of the table. -/
def operatorRank? (p : Parser) : Option Nat :=
  if p.current.kind = .operator then p.table.rank? p.current.text else none

/-- A binary operator and the operand behind it. -/
def link (nested : Parse Expr) : Parse Link := do
  let p ← state
  match BinaryOp.ofSymbol? p.current.text with
  | none => unexpected .binaryOperator
  | some op =>
    let _ ← advance
    let right ← operand nested
    return ⟨(operatorRank? p).getD 0, op, right⟩

/-- Operands joined by the operators of the table. -/
def joined (nested : Parse Expr) : Parse Expr := do
  let first ← operand nested
  let p ← state
  let links ← repeatWhile (fun q => (operatorRank? q).isSome) (link nested) p.ahead.length
  return Link.group first links

/-- An expression whose parts nest at most `depth` deep. -/
def nestedExpression : (depth : Nat) → Parse Expr
  | 0 => unexpected .expression
  | depth + 1 => joined (nestedExpression depth)

/-- How much the tokens ahead can nest: the comma and the opening sign of a shorthand count for the
tokens that they turn into. -/
def weight (ts : List Token) : Nat :=
  ts.foldr (fun t n => (if t.isOperator "," then 4 else if t.isOperator "<" then 3 else 1) + n) 0

/-- An expression. Whatever nests in it stands behind a token that is passed first, so the weight of
the tokens bounds the depth. -/
def expression : Parse Expr := do
  let p ← state
  nestedExpression (weight p.ahead + 1)

/-- One expression and nothing behind it. -/
def whole : Parse Expr := do
  let e ← expression
  expectEnd
  return e

end EventRules.Parse
