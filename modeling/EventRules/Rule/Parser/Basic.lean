import EventRules.Routine
import EventRules.Rule.Precedence
import EventRules.Rule.Shorthand

/-!
The state of a parser, its errors, and the steps that every construct is read with.

A parser stands between the tokens it has passed and those ahead; the end token stands behind both and
is never passed. A failing step leaves the parser where it failed.
-/

namespace EventRules
set_option autoImplicit false

/-- What a parser needed to go on. -/
inductive Expectation where
  | symbol (s : String)
  | name
  | expression
  | binaryOperator
  | operand
  | endOfInput
deriving DecidableEq, Repr

def Expectation.shown : Expectation → String
  | symbol s => s!"'{s}'"
  | name => "identifier"
  | expression => "expression"
  | binaryOperator => "binary operator"
  | operand => "operand after comparison"
  | endOfInput => "end of input"

inductive ParseError where
  | unexpected (expected : Expectation) (found : Token)
  | unmatchedBracket (opening found : Token)
  | notAStatement (keyword : Token)
  | chainElementMissing (found : Token)
  | chainElementNotCalled (name : Token)
  | integerOutOfRange (literal : Token)
  | invalidFloat (literal : Token)
  | durationOutOfRange (literal : Token)
deriving DecidableEq, Repr

namespace ParseError

/-- The token an error points at. -/
def token : ParseError → Token
  | unexpected _ t | unmatchedBracket _ t | notAStatement t | chainElementMissing t
  | chainElementNotCalled t | integerOutOfRange t | invalidFloat t | durationOutOfRange t => t

def position (e : ParseError) : Position := e.token.position

def message (e : ParseError) : String :=
  let place := e.position.shown
  match e with
  | unexpected expected found => s!"Expected {expected.shown}, got {found.shown} at {place}"
  | unmatchedBracket opening found =>
    s!"Unmatched '{opening.text}' opened at {opening.position.shown}, got {found.shown}"
  | notAStatement keyword => s!"'{keyword.text}' cannot start a statement at {place}"
  | chainElementMissing found =>
    s!"Expected a function call after '.', got {found.shown} at {place}"
  | chainElementNotCalled name => s!"Chain element '{name.text}' must be a function call at {place}"
  | integerOutOfRange _ => s!"Integer literal out of range at {place}"
  | invalidFloat _ => s!"Invalid float literal at {place}"
  | durationOutOfRange _ => s!"Duration out of range at {place}"

end ParseError

structure Parser where
  /-- the tokens already passed, the latest first -/
  passed : List Token
  ahead : List Token
  /-- the end token -/
  last : Token
  table : Precedence
deriving DecidableEq, Repr

namespace Parser

/-- The end token behind tokens that have none. -/
def endBehind (tokens : List Token) : Token :=
  match tokens.getLast? with
  | none => Token.atEnd Position.nowhere
  | some t => Token.atEnd { t.position with offset := t.endOffset }

/-- A parser at the start of the tokens. An end token is added if the last token is none. -/
def ofTokens (tokens : List Token) (table : Precedence) : Parser :=
  match tokens.getLast? with
  | some t =>
    if t.isEnd then ⟨[], tokens.dropLast, t, table⟩ else ⟨[], tokens, endBehind tokens, table⟩
  | none => ⟨[], [], endBehind tokens, table⟩

theorem ofTokens_ended {t : Token} (ht : t.isEnd = true) (ts : List Token) (table : Precedence) :
    ofTokens (ts ++ [t]) table = ⟨[], ts, t, table⟩ := by
  simp [ofTokens, ht]

theorem ofTokens_open {ts us : List Token} {t : Token} (hts : ts = us ++ [t]) (ht : t.isEnd = false)
    (table : Precedence) : ofTokens ts table = ⟨[], ts, endBehind ts, table⟩ := by
  subst hts
  simp [ofTokens, ht]

theorem endBehind_isEnd (ts : List Token) : (endBehind ts).isEnd = true := by
  rw [endBehind]
  split <;> rfl

/-- All tokens, as far as shorthands are expanded by now. -/
def tokens (p : Parser) : List Token := p.passed.reverse ++ p.ahead ++ [p.last]

/-- The token `n` places ahead; behind the last one, the end token repeats. -/
def peek (p : Parser) (n : Nat) : Token := p.ahead[n]?.getD p.last

def current (p : Parser) : Token := p.peek 0

/-- The parser behind its current token, unless that is an end token. -/
def advanced (p : Parser) : Parser :=
  match p.ahead with
  | t :: ts => if t.isEnd then p else { p with passed := t :: p.passed, ahead := ts }
  | [] => p

/-- The place of the parser among its tokens. -/
def mark (p : Parser) : Nat := p.passed.length

/-- The parser at an earlier or later place. Shorthands stay expanded. -/
def rewound (p : Parser) (mark : Nat) : Parser :=
  let all := p.passed.reverse ++ p.ahead
  { p with passed := (all.take mark).reverse, ahead := all.drop mark }

theorem length_tokens (p : Parser) : p.tokens.length = p.mark + p.ahead.length + 1 := by
  simp only [tokens, mark, List.length_append, List.length_reverse, List.length_singleton]

theorem tokens_advanced (p : Parser) : p.advanced.tokens = p.tokens := by
  rw [advanced]
  split
  · next t ts hahead =>
    split
    · rfl
    · simp [tokens, hahead]
  · rfl

theorem last_advanced (p : Parser) : p.advanced.last = p.last := by
  rw [advanced]
  split
  · split <;> rfl
  · rfl

theorem tokens_rewound (p : Parser) (k : Nat) : (p.rewound k).tokens = p.tokens := by
  simp [tokens, rewound]

theorem mark_rewound {p : Parser} {k : Nat} (h : k < p.tokens.length) : (p.rewound k).mark = k := by
  rw [length_tokens] at h
  simp [mark, rewound] at h ⊢
  omega

end Parser

/-- A step of a parser. -/
abbrev Parse (α : Type) : Type := Routine Parser ParseError α

namespace Parse

open Routine

variable {α : Type}

def current : Parse Token := do return (← state).current

/-- Whether the current token satisfies a test. -/
def sees (test : Token → Bool) : Parse Bool := do return test (← state).current

/-- Passes the current token. -/
def advance : Parse Token := do
  let t ← current
  change Parser.advanced
  return t

def unexpected (expected : Expectation) : Parse α := do fail (.unexpected expected (← current))

/-- Passes a token that satisfies the test; `expected` says what was needed. -/
def expect (test : Token → Bool) (expected : Expectation) : Parse Token := do
  if ← sees test then advance else unexpected expected

def expectOperator (symbol : String) : Parse Token := expect (·.isOperator symbol) (.symbol symbol)

def expectBracket (symbol : String) : Parse Token := expect (·.isBracket symbol) (.symbol symbol)

def expectName : Parse Token := expect Token.isName .name

/-- Passes the bracket that closes `opening`. -/
def expectClosing (isClosing : Token → Bool) (opening : Token) : Parse Token := do
  let t ← current
  if isClosing t then advance else fail (.unmatchedBracket opening t)

def expectEnd : Parse Unit := do
  if ← sees Token.isEnd then return () else unexpected .endOfInput

/-- Runs a step with another table and installs the old one again, also after a failure. -/
def withTable (table : Precedence) (m : Parse α) : Parse α := fun p =>
  let (r, q) := m.run { p with table }
  (r, { q with table := p.table })

/-- Runs a step for a result that may be missing; without one the parser goes back to where it was. -/
def attempt (m : Parse (Option α)) : Parse (Option α) := fun p =>
  match m.run p with
  | (.ok none, q) => (.ok none, q.rewound p.mark)
  | r => r

/-- Repeats `item` while the current token satisfies the test. No more rounds are possible than there
are tokens ahead, because each one passes a token. -/
def many (test : Token → Bool) (item : Parse α) : Parse (List α) := do
  let p ← state
  repeatWhile (fun q => test q.current) item p.ahead.length

end Parse

end EventRules
