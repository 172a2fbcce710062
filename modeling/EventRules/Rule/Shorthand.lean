import EventRules.Rule.Token

/-!
Shapes of the tokens ahead: a range in parentheses, and the shorthand `<a,b,c>` for the arrow
`\x7b==a\x7d->\x7b==b\x7d->\x7b==c\x7d`.
-/

namespace EventRules.Token
set_option autoImplicit false

def opensGroup (t : Token) : Bool := t.text == "(" || t.text == "[" || t.text == "\x7b"

/-- Whether the group at the head of the tokens, inside `depth` brackets and after `commas` commas on
its own level, ends with exactly one comma. -/
def endsWithOneComma : List Token → (depth commas : Nat) → Bool
  | [], _, _ => false
  | t :: ts, depth, commas =>
    match t.kind with
    | .bracket =>
      if t.opensGroup then endsWithOneComma ts (depth + 1) commas
      else if depth ≤ 1 then commas == 1
      else endsWithOneComma ts (depth - 1) commas
    | .operator =>
      endsWithOneComma ts depth (if depth = 1 ∧ t.text = "," then commas + 1 else commas)
    | .endOfInput => false
    | _ => endsWithOneComma ts depth commas

/-- The bracket group at the head of the tokens is a range and not an expression in parentheses. -/
def startsRange (ts : List Token) : Bool := endsWithOneComma ts 0 0

/-- A value that the shorthand takes: any literal but a duration. -/
def isShorthandValue (t : Token) : Bool := t.isScalar && t.kind != .duration

/-- The length of `value , value , … >` at the head of the tokens. -/
def shorthandValues? : List Token → Option Nat
  | value :: separator :: ts =>
    if value.isShorthandValue then
      if separator.isOperator "," then (shorthandValues? ts).map (· + 2)
      else if separator.isOperator ">" then some 2
      else none
    else none
  | _ => none

/-- The place of the closing `>` if the shorthand stands at the head of the tokens. -/
def shorthandEnd? : List Token → Option Nat
  | t :: ts => if t.isOperator "<" then shorthandValues? ts else none
  | [] => none

/-- The stage that compares with a value; its tokens take the place of the value. -/
def equalityStage (value : Token) : List Token :=
  [⟨.bracket, "\x7b", value.position⟩, ⟨.operator, "==", value.position⟩, value,
    ⟨.bracket, "\x7d", value.position⟩]

/-- The arrow for the values among the tokens. -/
def expandShorthand (span : List Token) : List Token :=
  match span.filter isScalar with
  | [] => []
  | value :: values =>
    equalityStage value ++
      values.flatMap fun v => ⟨.operator, "->", v.position⟩ :: equalityStage v

end EventRules.Token
