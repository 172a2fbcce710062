import EventRules.Keyed
import EventRules.Rule.Expr

/-!
Typing: the type that an expression of literals, constants and operators has whatever the event is.
Constants that spell a number count as numbers.
-/

namespace EventRules
set_option autoImplicit false

inductive ValueType where
  | integer
  | float
  | boolean
deriving DecidableEq, Repr

namespace ValueType

def isNumeric : ValueType → Bool
  | integer | float => true
  | boolean => false

def shown : ValueType → String
  | integer => "INTEGER"
  | float => "FLOAT"
  | boolean => "BOOLEAN"

/-- The type of a number written with digits, and a fraction if it is a float. -/
def ofNumeral? (cs : List Char) : Option ValueType :=
  let unsigned := match cs with
    | '-' :: rest => rest
    | _ => cs
  if (unsigned.takeWhile Char.isDigit).isEmpty then none
  else
    match unsigned.dropWhile Char.isDigit with
    | [] => some integer
    | '.' :: fraction => if !fraction.isEmpty && fraction.all Char.isDigit then some float else none
    | _ => none

/-- The type of a constant, if it spells a number. A whole float keeps its type. -/
def ofConstant? (v : Value) : Option ValueType :=
  let text := match v with
    | .float _ => v.shown
    | _ => v.asText
  ofNumeral? text.toList

end ValueType

/-- What has no type before an event is known. -/
inductive Untyped where
  | textLiteral
  | durationLiteral
  | result (function : String)
  | chain
  | arrow
  | compare
  | range
  | lambda
deriving DecidableEq

def Untyped.shown : Untyped → String
  | textLiteral => "a string literal"
  | durationLiteral => "a duration literal"
  | result function => s!"the result of '{function}()'"
  | chain => "a chain expression"
  | arrow => "an arrow expression"
  | compare => "a compare expression"
  | range => "a range expression"
  | lambda => "an anonymous function"

inductive TypingError where
  | operands (op : BinaryOp) (left right : ValueType) (position : Position)
  | operand (op : UnaryOp) (position : Position)
  | bounds (opening closing : Token) (lower upper : ValueType)
  | undefined (name : Token)
  | notNumeric (name : Token) (value : Value)
  | untyped (what : Untyped) (position : Position)
deriving DecidableEq

namespace TypingError

def position : TypingError → Position
  | operands _ _ _ position | operand _ position | untyped _ position => position
  | bounds opening _ _ _ => opening.position
  | undefined name | notNumeric name _ => name.position

/-- What an operator asks of its operands, for types that do not satisfy it. -/
def demand (op : BinaryOp) (left right : ValueType) : String :=
  if op = .divide then "needs numeric operands"
  else if op.isArithmetic then "only accepts integers or floats on both sides"
  else if op.isBitwise then
    if left = .float ∨ right = .float then "does not support floats" else "only accepts integers"
  else if op.isLogical then "only accepts booleans"
  else "orders numbers only"

def message : TypingError → String
  | operands op left right _ =>
    let demand := demand op left right
    s!"Type inference error: '{op.symbol}' {demand} (got {left.shown} and {right.shown})"
  | operand op _ => s!"Type inference error: '{op.symbol}' only applies to integers"
  | bounds opening closing lower upper =>
    let got := s!"(got {lower.shown} and {upper.shown})"
    s!"Type inference error: '{opening.text}{closing.text}' range bounds must share one numeric type {got}"
  | undefined name => s!"Type inference error: undefined variable '{name.text}'"
  | notNumeric name value =>
    let bound := s!"variable '{name.text}' is bound to {value.shown}"
    s!"Type inference error: {bound}, only numeric constants are supported"
  | untyped what _ => s!"Type inference error: cannot infer the type of {what.shown}"

end TypingError

/-- The type of a result, if the operator accepts operands of these types. A quotient is a float, and
equality accepts everything. -/
def BinaryOp.type? (op : BinaryOp) (left right : ValueType) : Option ValueType :=
  match op with
  | .divide => if left.isNumeric || right.isNumeric then some .float else none
  | .add | .subtract | .multiply =>
    if !(left.isNumeric && right.isNumeric) then none
    else if left = .integer ∧ right = .integer then some .integer
    else some .float
  | .bitOr | .bitXor | .bitAnd | .shiftLeft | .shiftRight =>
    if left = .integer ∧ right = .integer then some .integer else none
  | .and | .or => if left = .boolean ∧ right = .boolean then some .boolean else none
  | .compare c =>
    if c.isEquality || (left.isNumeric && right.isNumeric) then some .boolean else none

namespace Expr

def type (constants : Keyed Value) (e : Expr) : Except TypingError ValueType :=
  match e with
  | scalar (.integer _) _ => .ok .integer
  | scalar (.float _) _ => .ok .float
  | scalar (.boolean _) _ => .ok .boolean
  | scalar (.text _) token => .error (.untyped .textLiteral token.position)
  | scalar (.duration _) token => .error (.untyped .durationLiteral token.position)
  | ident name =>
    match constants.get? name.text with
    | none => .error (.undefined name)
    | some v =>
      match ValueType.ofConstant? v with
      | some t => .ok t
      | none => .error (.notNumeric name v)
  | binary op left right => do
    let l ← left.type constants
    let r ← right.type constants
    match op.type? l r with
    | some t => .ok t
    | none => .error (.operands op l r e.position)
  | unary op operand => do
    match ← operand.type constants with
    | .integer => .ok .integer
    | _ => .error (.operand op e.position)
  | call c => .error (.untyped (.result c.name.text) c.position)
  | chain _ => .error (.untyped .chain e.position)
  | arrow _ => .error (.untyped .arrow e.position)
  | compare _ _ => .error (.untyped .compare e.position)
  | range _ _ _ _ => .error (.untyped .range e.position)
  | lambda _ _ => .error (.untyped .lambda e.position)

end Expr

end EventRules
