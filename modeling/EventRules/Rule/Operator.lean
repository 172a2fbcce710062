/-!
The operators of the rule language and their symbols. A symbol names at most one operator of a kind.
-/

namespace EventRules
set_option autoImplicit false

/-- A comparison with the value under test, such as `>=10`. -/
inductive CompareOp where
  | equal
  | notEqual
  | greater
  | less
  | greaterEqual
  | lessEqual
deriving DecidableEq, Repr, Inhabited

inductive BinaryOp where
  | or
  | and
  | bitOr
  | bitXor
  | bitAnd
  | shiftLeft
  | shiftRight
  | compare (op : CompareOp)
  | add
  | subtract
  | multiply
  | divide
deriving DecidableEq, Repr, Inhabited

inductive UnaryOp where
  | not
  | increment
  | decrement
deriving DecidableEq, Repr, Inhabited

namespace CompareOp

def all : List CompareOp := [.equal, .notEqual, .greater, .less, .greaterEqual, .lessEqual]

def symbol : CompareOp → String
  | equal => "=="
  | notEqual => "!="
  | greater => ">"
  | less => "<"
  | greaterEqual => ">="
  | lessEqual => "<="

def ofSymbol? (s : String) : Option CompareOp := all.find? fun op => op.symbol == s

/-- Equality applies to every value; the orderings need numbers. -/
def isEquality : CompareOp → Bool
  | equal | notEqual => true
  | _ => false

/-- What the comparison says of a known order. -/
def holds : CompareOp → Ordering → Bool
  | equal, o => o == .eq
  | notEqual, o => o != .eq
  | greater, o => o == .gt
  | less, o => o == .lt
  | greaterEqual, o => o != .lt
  | lessEqual, o => o != .gt

theorem ofSymbol_symbol (op : CompareOp) : ofSymbol? op.symbol = some op := by
  cases op <;> decide

theorem symbol_ofSymbol {s : String} {op : CompareOp} (h : ofSymbol? s = some op) :
    op.symbol = s := by
  simpa using List.find?_some h

end CompareOp

namespace BinaryOp

def all : List BinaryOp :=
  [.or, .and, .bitOr, .bitXor, .bitAnd, .shiftLeft, .shiftRight, .add, .subtract, .multiply, .divide]
    ++ CompareOp.all.map .compare

def symbol : BinaryOp → String
  | or => "||"
  | and => "&&"
  | bitOr => "|"
  | bitXor => "^"
  | bitAnd => "&"
  | shiftLeft => "<<"
  | shiftRight => ">>"
  | compare op => op.symbol
  | add => "+"
  | subtract => "-"
  | multiply => "*"
  | divide => "/"

def ofSymbol? (s : String) : Option BinaryOp := all.find? fun op => op.symbol == s

def isLogical : BinaryOp → Bool
  | or | and => true
  | _ => false

def isBitwise : BinaryOp → Bool
  | bitOr | bitXor | bitAnd | shiftLeft | shiftRight => true
  | _ => false

def isArithmetic : BinaryOp → Bool
  | add | subtract | multiply | divide => true
  | _ => false

/-- The comparison that the operator performs, if it is one. -/
def asCompare? : BinaryOp → Option CompareOp
  | compare op => some op
  | _ => none

def isComparison (op : BinaryOp) : Bool := op.asCompare?.isSome

theorem ofSymbol_symbol (op : BinaryOp) : ofSymbol? op.symbol = some op := by
  cases op with
  | compare op => cases op <;> decide
  | _ => decide

theorem symbol_ofSymbol {s : String} {op : BinaryOp} (h : ofSymbol? s = some op) :
    op.symbol = s := by
  simpa using List.find?_some h

end BinaryOp

namespace UnaryOp

def all : List UnaryOp := [.not, .increment, .decrement]

def symbol : UnaryOp → String
  | not => "!"
  | increment => "++"
  | decrement => "--"

def ofSymbol? (s : String) : Option UnaryOp := all.find? fun op => op.symbol == s

theorem ofSymbol_symbol (op : UnaryOp) : ofSymbol? op.symbol = some op := by
  cases op <;> decide

theorem symbol_ofSymbol {s : String} {op : UnaryOp} (h : ofSymbol? s = some op) :
    op.symbol = s := by
  simpa using List.find?_some h

end UnaryOp

end EventRules
