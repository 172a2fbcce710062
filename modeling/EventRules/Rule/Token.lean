import EventRules.Number.Digits
import EventRules.Number.Signed

/-!
Tokens of rule text and their places in it.
-/

namespace EventRules
set_option autoImplicit false

/-- A place in a text: the number of characters before it, and its line and column from 1. -/
structure Position where
  offset : Nat
  line : Nat
  column : Nat
deriving DecidableEq, Repr

namespace Position

def start : Position := ⟨0, 1, 1⟩

/-- The place of what belongs to no text. -/
def nowhere : Position := ⟨0, 0, 0⟩

instance : Inhabited Position := ⟨nowhere⟩

/-- The place after a character. Only a newline begins a line. -/
def next (p : Position) (c : Char) : Position :=
  if c = '\n' then ⟨p.offset + 1, p.line + 1, 1⟩ else ⟨p.offset + 1, p.line, p.column + 1⟩

/-- The place after a text. -/
def after (p : Position) (cs : List Char) : Position := cs.foldl next p

def shown (p : Position) : String := s!"line {p.line}, column {p.column}"

@[simp] theorem after_nil (p : Position) : p.after [] = p := rfl

@[simp] theorem after_cons (p : Position) (c : Char) (cs : List Char) :
    p.after (c :: cs) = (p.next c).after cs := rfl

theorem after_append (p : Position) (cs ds : List Char) :
    p.after (cs ++ ds) = (p.after cs).after ds := List.foldl_append

theorem offset_next (p : Position) (c : Char) : (p.next c).offset = p.offset + 1 := by
  unfold next; split <;> rfl

theorem offset_after (p : Position) (cs : List Char) : (p.after cs).offset = p.offset + cs.length := by
  induction cs generalizing p with
  | nil => rfl
  | cons c cs ih => rw [after_cons, ih, offset_next, List.length_cons]; omega

end Position

inductive TokenKind where
  | name
  | integer
  | float
  | text
  | boolean
  | duration
  | keyword
  | operator
  | bracket
  | endOfInput
deriving DecidableEq, Repr, Inhabited

/-- A token with its text: for a string literal its content, otherwise what is written. -/
structure Token where
  kind : TokenKind
  text : String
  position : Position
deriving DecidableEq, Repr, Inhabited

namespace Token

def atEnd (p : Position) : Token := ⟨.endOfInput, "", p⟩

/-- A literal that can be an operand. -/
def isScalar (t : Token) : Bool :=
  match t.kind with
  | .integer | .float | .text | .boolean | .duration => true
  | _ => false

def isNumber (t : Token) : Bool :=
  match t.kind with
  | .integer | .float => true
  | _ => false

def isName (t : Token) : Bool := t.kind == .name

def isEnd (t : Token) : Bool := t.kind == .endOfInput

def typeNames : List String := ["int", "float", "bool", "string"]

def isTypeName (t : Token) : Bool := t.kind == .keyword && typeNames.contains t.text

def isKeyword (t : Token) (word : String) : Bool := t.kind == .keyword && t.text == word

def isOperator (t : Token) (symbol : String) : Bool := t.kind == .operator && t.text == symbol

def isBracket (t : Token) (symbol : String) : Bool := t.kind == .bracket && t.text == symbol

/-- The offset after as many characters as the text has. -/
def endOffset (t : Token) : Nat := t.position.offset + t.text.length

def shown (t : Token) : String := if t.isEnd then "end of input" else s!"'{t.text}'"

/-- The units of a duration with their milliseconds, in the order in which they are tried. -/
def durationUnits : List (String × Int) :=
  [("ms", 1), ("s", 1000), ("m", 60000), ("h", 3600000), ("d", 86400000)]

/-- The milliseconds of a duration: an amount and a unit, both present and in range. -/
def milliseconds? (t : Token) : Option Int64 := do
  if t.kind ≠ .duration then none
  let amount := t.text.toList.takeWhile fun c => !c.isAlpha
  let unit := t.text.toList.dropWhile fun c => !c.isAlpha
  let n ← (Number.readInt? amount).bind Number.fit64?
  let factor ← durationUnits.lookup (String.ofList unit)
  Number.fit64? (n.toInt * factor)

end Token

end EventRules
