import EventRules.Rule.Token
import EventRules.Text.Blank
import EventRules.Text.Numeral

/-!
Cutting rule text into tokens.

A lexer reads one token at a time and can be used on after an error, from where the error left it.
Every token but the last one consumes at least one character, so the text is used up in the end.
-/

namespace EventRules
set_option autoImplicit false

open Text

inductive LexError where
  | unexpectedCharacter (c : Char) (position : Position)
  | invalidEscape (c : Char) (position : Position)
  | unterminatedString (position : Position)
deriving DecidableEq, Repr

namespace LexError

def position : LexError → Position
  | unexpectedCharacter _ p | invalidEscape _ p | unterminatedString p => p

def cause : LexError → String
  | unexpectedCharacter c _ => s!"Unexpected character '{c}'"
  | invalidEscape c _ => "Invalid escape sequence '\\" ++ c.toString ++ "'"
  | unterminatedString _ => "Unterminated string literal"

def message (e : LexError) : String := s!"{e.cause} at {e.position.shown}"

end LexError

/-- The text that is left, and the place where it begins. -/
structure Cursor where
  rest : List Char
  position : Position
deriving DecidableEq, Repr

namespace Cursor

def drop (c : Cursor) (n : Nat) : Cursor := ⟨c.rest.drop n, c.position.after (c.rest.take n)⟩

def skipBlanks (c : Cursor) : Cursor :=
  ⟨c.rest.dropWhile isBlank, c.position.after (c.rest.takeWhile isBlank)⟩

end Cursor

namespace Lexer

def keywords : List String := ["let", "if", "else", "return"] ++ Token.typeNames

/-- The operators of two characters; they go before those of one. -/
def doubleOperators : List (List Char) :=
  ["->", "++", "--", "==", "!=", ">=", "<=", "<<", ">>", "&&", "||"].map String.toList

def singleOperators : List Char := "><!=+-*/&|^,.;".toList

def isBracketChar (c : Char) : Bool := ['(', ')', '[', ']', '\x7b', '\x7d'].contains c

def wordKind (w : String) : TokenKind :=
  if w = "true" ∨ w = "false" then .boolean
  else if keywords.contains w then .keyword
  else .name

/-- What an escaped character stands for. -/
def unescape? : Char → Option Char
  | 'n' => some '\n'
  | 't' => some '\t'
  | 'r' => some '\r'
  | '"' => some '"'
  | '\'' => some '\''
  | '\\' => some '\\'
  | _ => none

/-- The content of a string literal that began at `start`, from inside it on. `seen` is the content
so far, last character first. -/
def readQuoted (start : Position) (quote : Char) (seen : List Char) :
    List Char → Position → Except LexError (List Char) × Cursor
  | [], p => (.error (.unterminatedString start), ⟨[], p⟩)
  | '\\' :: [], p => (.error (.unterminatedString start), ⟨[], p.next '\\'⟩)
  | '\\' :: e :: cs, p =>
    match unescape? e with
    | some c => readQuoted start quote (c :: seen) cs ((p.next '\\').next e)
    | none => (.error (.invalidEscape e (p.next '\\')), ⟨e :: cs, p.next '\\'⟩)
  | c :: cs, p =>
    if c = quote then (.ok seen.reverse, ⟨cs, p.next c⟩)
    else readQuoted start quote (c :: seen) cs (p.next c)

/-- The unit written directly behind an amount, if no word goes on behind it. -/
def durationUnit? (cs : List Char) : Option (List Char) :=
  (Token.durationUnits.map fun u => u.1.toList).find? fun u =>
    u.isPrefixOf cs && !(cs.drop u.length).head?.any continuesWord

/-- A number without sign at the head of the text: its kind and its characters. A point belongs to it
if a digit follows, and a time unit if the number is whole. -/
def readUnsigned (cs : List Char) : TokenKind × List Char :=
  let whole := cs.takeWhile Char.isDigit
  match cs.dropWhile Char.isDigit with
  | '.' :: d :: rest =>
    if d.isDigit then (.float, whole ++ '.' :: (d :: rest).takeWhile Char.isDigit)
    else (.integer, whole)
  | rest =>
    match durationUnit? rest with
    | some unit => (.duration, whole ++ unit)
    | none => (.integer, whole)

def readNumber : List Char → TokenKind × List Char
  | '-' :: cs => ((readUnsigned cs).1, '-' :: (readUnsigned cs).2)
  | cs => readUnsigned cs

/-- A minus before a digit belongs to the number unless an operand stands before it. -/
def minusStartsNumber (previous : Option Token) (afterMinus : List Char) : Bool :=
  afterMinus.head?.any Char.isDigit &&
    match previous with
    | none => true
    | some t =>
      match t.kind with
      | .operator => t.text != "."
      | .bracket => t.text == "(" || t.text == "[" || t.text == "\x7b"
      | .keyword => true
      | _ => false

/-- Kind and characters of the token at the head of a text that does not begin with a blank or with a
quote. -/
def readPlain? (previous : Option Token) (cs : List Char) : Option (TokenKind × List Char) :=
  match cs with
  | [] => some (.endOfInput, [])
  | c :: rest =>
    if (c == '-' && minusStartsNumber previous rest) || c.isDigit then some (readNumber cs)
    else if isBracketChar c then some (.bracket, [c])
    else if startsWord c then
      let word := cs.takeWhile continuesWord
      some (wordKind (String.ofList word), word)
    else
      match doubleOperators.find? (·.isPrefixOf cs) with
      | some op => some (.operator, op)
      | none => if singleOperators.contains c then some (.operator, [c]) else none

end Lexer

/-- A lexer in the middle of a text: what is left, and the last token it gave. -/
structure Lexer extends Cursor where
  previous : Option Token
deriving DecidableEq, Repr

namespace Lexer

def ofText (source : String) : Lexer := ⟨⟨source.toList, Position.start⟩, none⟩

/-- The quote at the head of a text, and what follows it. -/
def openingQuote? : List Char → Option (Char × List Char)
  | '"' :: cs => some ('"', cs)
  | '\'' :: cs => some ('\'', cs)
  | _ => none

/-- The lexer after a token that was read from `at_` on. -/
def give (kind : TokenKind) (text : List Char) (at_ : Position) (behind : Cursor) :
    Except LexError Token × Lexer :=
  let token : Token := ⟨kind, String.ofList text, at_⟩
  (.ok token, ⟨behind, some token⟩)

/-- The next token. At the end of the text it is the end token, again and again. -/
def next (l : Lexer) : Except LexError Token × Lexer :=
  let c := l.skipBlanks
  match openingQuote? c.rest with
  | some (quote, cs) =>
    match readQuoted c.position quote [] cs (c.position.next quote) with
    | (.ok text, behind) => give .text text c.position behind
    | (.error e, behind) => (.error e, ⟨behind, l.previous⟩)
  | none =>
    match readPlain? l.previous c.rest with
    | some (kind, text) => give kind text c.position (c.drop text.length)
    | none => (.error (.unexpectedCharacter (c.rest.headD ' ') c.position), ⟨c, l.previous⟩)

theorem skipBlanks_length (c : Cursor) : c.skipBlanks.rest.length ≤ c.rest.length :=
  (List.dropWhile_suffix _).length_le

theorem quoted_length {start : Position} {quote : Char} {seen text : List Char} {cs : List Char}
    {p : Position} {behind : Cursor}
    (h : readQuoted start quote seen cs p = (.ok text, behind)) :
    behind.rest.length < cs.length := by
  fun_induction readQuoted start quote seen cs p with
  | case1 => simp at h
  | case2 => simp at h
  | case3 seen e cs p c hc ih => have := ih h; simp; omega
  | case4 => simp at h
  | case5 seen c cs p hn => simp only [Prod.mk.injEq] at h; simp [← h.2]
  | case6 seen c cs p _ _ hq ih => have := ih h; simp; omega

theorem unsigned_text_pos {c : Char} {rest : List Char} (h : c.isDigit = true) :
    0 < (readUnsigned (c :: rest)).2.length := by
  unfold readUnsigned
  simp only [List.takeWhile, h]
  split
  · split <;> simp
  · split <;> simp

theorem number_text_pos {c : Char} {rest : List Char} (h : c = '-' ∨ c.isDigit = true) :
    0 < (readNumber (c :: rest)).2.length := by
  unfold readNumber
  split
  · simp
  · rename_i hn
    exact unsigned_text_pos (h.resolve_left fun hc => hn rest (by rw [hc]))

theorem plain_text_pos {previous : Option Token} {cs text : List Char} {kind : TokenKind}
    (h : readPlain? previous cs = some (kind, text)) (hk : kind ≠ .endOfInput) :
    0 < text.length ∧ 0 < cs.length := by
  unfold readPlain? at h
  split at h
  · simp only [Option.some.injEq, Prod.mk.injEq] at h
    exact absurd h.1.symm hk
  · rename_i c rest
    refine ⟨?_, by simp⟩
    split at h
    · rename_i hc
      have ht : text = (readNumber (c :: rest)).2 := by rw [Option.some.inj h]
      rw [ht]
      apply number_text_pos
      simp only [Bool.or_eq_true, Bool.and_eq_true, beq_iff_eq] at hc
      exact hc.imp And.left id
    · split at h
      · simp only [Option.some.injEq, Prod.mk.injEq] at h; simp [← h.2]
      · split at h
        · rename_i hw
          simp only [Option.some.injEq, Prod.mk.injEq] at h
          simp [← h.2, List.takeWhile, continuesWord_of_startsWord hw]
        · split at h
          · rename_i op ho
            simp only [Option.some.injEq, Prod.mk.injEq] at h
            have hm : ∀ op ∈ doubleOperators, op.length = 2 := by decide
            simp [← h.2, hm op (List.mem_of_find?_eq_some ho)]
          · split at h
            · simp only [Option.some.injEq, Prod.mk.injEq] at h; simp [← h.2]
            · simp at h

theorem openingQuote_length {cs rest : List Char} {quote : Char}
    (h : openingQuote? cs = some (quote, rest)) : rest.length < cs.length := by
  unfold openingQuote? at h
  split at h
  · simp only [Option.some.injEq, Prod.mk.injEq] at h; simp [h.2]
  · simp only [Option.some.injEq, Prod.mk.injEq] at h; simp [h.2]
  · simp at h

/-- Every token but the end of the text uses up a part of it. -/
theorem next_length {l behind : Lexer} {t : Token} (h : l.next = (.ok t, behind))
    (ht : t.kind ≠ .endOfInput) : behind.rest.length < l.rest.length := by
  have hs := skipBlanks_length l.toCursor
  simp only [next] at h
  split at h
  · rename_i quote cs hq
    have := openingQuote_length hq
    split at h
    · rename_i text b hr
      have := quoted_length hr
      simp only [give, Prod.mk.injEq] at h
      rw [← h.2]
      show b.rest.length < _
      omega
    · simp at h
  · split at h
    · rename_i kind text hp
      simp only [give, Prod.mk.injEq, Except.ok.injEq] at h
      have := plain_text_pos hp (by rw [← h.1] at ht; exact ht)
      rw [← h.2]
      show (l.skipBlanks.rest.drop text.length).length < _
      rw [List.length_drop]
      omega
    · simp at h

/-- The tokens up to the end of the text. -/
def tokenizeFrom (l : Lexer) : Except LexError (List Token) :=
  match h : l.next with
  | (.error e, _) => .error e
  | (.ok t, behind) =>
    if ht : t.kind = .endOfInput then .ok [t]
    else
      have := next_length h ht
      (tokenizeFrom behind).map (t :: ·)
termination_by l.rest.length

end Lexer

/-- The tokens of a text; the last one, and no other, is the end token. -/
def tokenize (source : String) : Except LexError (List Token) := (Lexer.ofText source).tokenizeFrom

end EventRules
