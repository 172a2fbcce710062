import EventRules.Rule.Parser.Basic
import Mathlib.Logic.Relation

/-!
A parser that keeps all tokens in one list, and its place in it as an index. A lookup or a slice that leaves
the list has no answer. `Parser` keeps the tokens on both sides of its place instead.
-/

namespace EventRules
set_option autoImplicit false

/-- The tokens with an end token behind them. -/
def Parser.closed (tokens : List Token) : List Token :=
  if (tokens.getLast?.map Token.isEnd).getD false then tokens else tokens ++ [endBehind tokens]

structure IndexedParser where
  tokens : List Token
  cursor : Nat
  table : Precedence
deriving DecidableEq, Repr

namespace IndexedParser

def ofTokens (tokens : List Token) (table : Precedence) : IndexedParser := ⟨Parser.closed tokens, 0, table⟩

/-- The token `n` places ahead; the last one repeats. -/
def peek? (s : IndexedParser) (n : Nat) : Option Token := s.tokens[min (s.cursor + n) (s.tokens.length - 1)]?

/-- The current token, which is passed unless it is an end token. -/
def advance? (s : IndexedParser) : Option (Token × IndexedParser) := do
  let t ← s.peek? 0
  return (t, if t.isEnd then s else { s with cursor := s.cursor + 1 })

/-- The tokens from index `i` up to the one before `j`. -/
def slice? (s : IndexedParser) (i j : Nat) : Option (List Token) :=
  if i ≤ j ∧ j ≤ s.tokens.length then some ((s.tokens.take j).drop i) else none

/-- The tokens from the current one on. -/
def rest? (s : IndexedParser) : Option (List Token) := s.slice? s.cursor s.tokens.length

/-- Replaces the shorthand that begins at the current token and closes at index `stop` by its arrow. -/
def spliced? (s : IndexedParser) (stop : Nat) : Option IndexedParser := do
  let front ← s.slice? 0 s.cursor
  let span ← s.slice? s.cursor (stop + 1)
  let behind ← s.slice? (stop + 1) s.tokens.length
  return { s with tokens := front ++ Token.expandShorthand span ++ behind }

def rewound (s : IndexedParser) (mark : Nat) : IndexedParser := { s with cursor := mark }

/-- One change of the parser, beside the marks that it has handed out. -/
inductive Step : IndexedParser × List Nat → IndexedParser × List Nat → Prop where
  | advance {s s' : IndexedParser} {t : Token} (ms : List Nat) (h : s.advance? = some (t, s')) :
    Step (s, ms) (s', ms)
  | splice {s s' : IndexedParser} {ts : List Token} {n : Nat} (ms : List Nat) (hts : s.rest? = some ts)
    (hend : Token.shorthandEnd? ts = some n) (h : s.spliced? (s.cursor + n) = some s') :
    Step (s, ms) (s', ms)
  | mark (s : IndexedParser) (ms : List Nat) : Step (s, ms) (s, s.cursor :: ms)
  | rewind (s : IndexedParser) {ms : List Nat} {mark : Nat} (known : mark ∈ ms) :
    Step (s, ms) (s.rewound mark, ms)
  | install (s : IndexedParser) (ms : List Nat) (table : Precedence) : Step (s, ms) ({ s with table }, ms)

/-- Steps one behind the other. -/
abbrev Steps : IndexedParser × List Nat → IndexedParser × List Nat → Prop := Relation.ReflTransGen Step

/-- Some end token is the last one, and the place of the parser and its marks are places of tokens. -/
structure Valid (s : IndexedParser) (ms : List Nat) : Prop where
  ended : ∃ front t, s.tokens = front ++ [t] ∧ t.isEnd = true
  cursor : s.cursor < s.tokens.length
  known : ∀ k ∈ ms, k < s.tokens.length

/-- No lookup of the parser leaves the list. -/
structure InRange (s : IndexedParser) : Prop where
  peek : ∀ n, ∃ t, s.peek? n = some t
  advance : ∃ r, s.advance? = some r
  rest : ∃ ts, s.rest? = some ts
  splice : ∀ ts n, s.rest? = some ts → Token.shorthandEnd? ts = some n →
    ∃ s', s.spliced? (s.cursor + n) = some s'

end IndexedParser

/-- The parser with its place as an index among all of its tokens. -/
def Parser.indexed (p : Parser) : IndexedParser := ⟨p.tokens, p.mark, p.table⟩

end EventRules
