import EventRules.Rule.Parser.Expression
import EventRules.Rule.Statement

/-!
The grammar of programs: statements separated by semicolons, the last of which is usually the rule.
-/

namespace EventRules.Parse
set_option autoImplicit false

open Routine

/-- Statements up to a token that satisfies `stop`, up to the end or up to where no semicolon
separates them, `n` at most. -/
def statementsUpTo (stop : Token → Bool) (item : Parse Statement) : Nat → Parse (List Statement)
  | 0 => pure []
  | n + 1 => do
    let t ← current
    if stop t || t.isEnd then return []
    let s ← item
    let separators ← many (·.isOperator ";") advance
    if separators.isEmpty then return [s]
    let ss ← statementsUpTo stop item n
    return s :: ss

def statements (stop : Token → Bool) (item : Parse Statement) : Parse (List Statement) := do
  let p ← state
  statementsUpTo stop item (p.ahead.length + 1)

def block (nested : Parse Statement) : Parse (List Statement) := do
  let opening ← expectBracket "\x7b"
  let body ← statements (·.isBracket "\x7d") nested
  let _ ← expectClosing (·.isBracket "\x7d") opening
  return body

/-- A condition and one or two branches; another condition may stand for the second one. -/
def branch (nested : Parse Statement) : Parse Statement := do
  let _ ← advance
  let opening ← expectBracket "("
  let condition ← withTable .standard expression
  let _ ← expectClosing (·.isBracket ")") opening
  let taken ← block nested
  let otherwise ← if ← sees (·.isKeyword "else") then do
      let _ ← advance
      let other ← if ← sees (·.isKeyword "if") then nested else (.block <$> block nested)
      pure (some other)
    else pure none
  return .branch condition taken otherwise

def statement (nested : Parse Statement) : Parse Statement := do
  let p ← state
  let token := p.current
  if token.isKeyword "let" then
    let _ ← advance
    let name ← expectName
    let _ ← expectOperator "="
    return .declare name (← expression)
  else if token.isKeyword "if" then branch nested
  else if token.isKeyword "return" then
    let _ ← advance
    return .yield (← expression)
  else if token.isName && (p.peek 1).isOperator "=" then
    let name ← advance
    let _ ← advance
    return .assign name (← expression)
  else if token.kind = .keyword then fail (.notAStatement token)
  else return .bare (← expression)

/-- A statement whose blocks nest at most `depth` deep. -/
def nestedStatement : (depth : Nat) → Parse Statement
  | 0 => unexpected .expression
  | depth + 1 => statement (nestedStatement depth)

/-- A whole source: its statements and nothing behind them. -/
def program : Parse Program := do
  let p ← state
  let body ← statements Token.isEnd (nestedStatement (weight p.ahead + 1))
  expectEnd
  return body

end EventRules.Parse

namespace EventRules
set_option autoImplicit false

/-- The program that tokens spell. -/
def parseProgram (tokens : List Token) : Except ParseError Program :=
  (Parse.program.run (Parser.ofTokens tokens .standard)).1

/-- The expression that tokens spell. -/
def parseExpression (tokens : List Token) : Except ParseError Expr :=
  (Parse.whole.run (Parser.ofTokens tokens .standard)).1

end EventRules
