import EventRules.Rule.Operator
import EventRules.Rule.Token
import EventRules.Value.Basic

/-!
Expressions of the rule language, each with the tokens that its messages point at.
-/

namespace EventRules
set_option autoImplicit false

inductive Literal where
  | integer (n : Int64)
  | float (x : Float)
  | text (s : String)
  | boolean (b : Bool)
  /-- a duration in milliseconds -/
  | duration (ms : Int64)
deriving DecidableEq, Inhabited

namespace Literal

def shown : Literal → String
  | integer n => toString n.toInt
  | float x => Value.floatStyle.render x
  | text s => s!"'{s}'"
  | boolean b => if b then "true" else "false"
  | duration ms => s!"{ms.toInt}ms"

/-- The value of a literal; a duration is the number of its milliseconds. -/
def value : Literal → Value
  | integer n => .integer n
  | float x => .float x
  | text s => .text s
  | boolean b => .boolean b
  | duration ms => .integer ms

end Literal

/-- A call `name(…)`, or `name!(…)` if it is strict. -/
structure Call (Argument : Type) where
  name : Token
  strict : Bool
  args : List Argument

/-- One stage `{…}` of an arrow, with its opening bracket. -/
structure Stage (Body : Type) where
  opening : Token
  body : Body

inductive Expr where
  | scalar (value : Literal) (token : Token)
  | ident (name : Token)
  | binary (op : BinaryOp) (left right : Expr)
  | unary (op : UnaryOp) (operand : Expr)
  | compare (op : CompareOp) (operand : Expr)
  | range (opening : Token) (lower upper : Expr) (closing : Token)
  | arrow (stages : List (Stage Expr))
  | call (call : Call Expr)
  | chain (calls : List (Call Expr))
  | lambda (params : List Token) (body : Expr)

instance : Inhabited Expr := ⟨.scalar default default⟩

/-- Whether a bracket of a range takes its bound in. -/
def Token.isInclusive (bracket : Token) : Bool := bracket.isBracket "[" || bracket.isBracket "]"

/-- The comparison with the lower bound of a range. -/
def Token.lowerOp (opening : Token) : CompareOp :=
  if opening.isInclusive then .greaterEqual else .greater

/-- The comparison with the upper bound of a range. -/
def Token.upperOp (closing : Token) : CompareOp :=
  if closing.isInclusive then .lessEqual else .less

namespace Call

variable {α : Type}

def position (c : Call α) : Position := c.name.position

/-- The text of a call from the texts of its arguments. -/
def render (c : Call α) (args : List String) : String :=
  let marker := if c.strict then "!" else ""
  let list := String.intercalate "," args
  s!"{c.name.text}{marker}({list})"

end Call

namespace Expr

/-- The place that messages about an expression name; it is that of its leftmost operand. -/
def position : Expr → Position
  | scalar _ token => token.position
  | ident name => name.position
  | binary _ left _ => left.position
  | unary _ operand | compare _ operand => operand.position
  | range opening _ _ _ => opening.position
  | arrow stages => (stages.head?.map fun s => s.opening.position).getD Position.nowhere
  | call c => c.position
  | chain calls => (calls.head?.map Call.position).getD Position.nowhere
  | lambda params body => (params.head?.map Token.position).getD body.position

def isLeaf : Expr → Bool
  | scalar _ _ | ident _ => true
  | _ => false

mutual

def containsArrow : Expr → Bool
  | arrow _ => true
  | scalar _ _ | ident _ => false
  | binary _ left right => left.containsArrow || right.containsArrow
  | unary _ operand | compare _ operand => operand.containsArrow
  | range _ lower upper _ => lower.containsArrow || upper.containsArrow
  | call ⟨_, _, args⟩ => anyContainsArrow args
  | chain calls => anyCallContainsArrow calls
  | lambda _ body => body.containsArrow

def anyContainsArrow : List Expr → Bool
  | [] => false
  | e :: es => e.containsArrow || anyContainsArrow es

def anyCallContainsArrow : List (Call Expr) → Bool
  | [] => false
  | ⟨_, _, args⟩ :: cs => anyContainsArrow args || anyCallContainsArrow cs

end

mutual

/-- An expression as messages show it: every binary operation in parentheses, without blanks. -/
def shown : Expr → String
  | scalar value _ => value.shown
  | ident name => name.text
  | binary op left right => s!"({left.shown}{op.symbol}{right.shown})"
  | unary op operand => op.symbol ++ operand.shown
  | compare op operand => op.symbol ++ operand.shown
  | range opening lower upper closing =>
    s!"{opening.text}{lower.shown},{upper.shown}{closing.text}"
  | arrow stages => String.intercalate "->" (shownStages stages)
  | call ⟨name, strict, args⟩ => (Call.mk name strict args).render (shownAll args)
  | chain calls => String.intercalate "." (shownCalls calls)
  | lambda params body =>
    let names := String.intercalate "," (params.map Token.text)
    s!"({names})->{body.shown}"

def shownAll : List Expr → List String
  | [] => []
  | e :: es => e.shown :: shownAll es

def shownStages : List (Stage Expr) → List String
  | [] => []
  | ⟨_, body⟩ :: ss => s!"\x7b{body.shown}\x7d" :: shownStages ss

def shownCalls : List (Call Expr) → List String
  | [] => []
  | ⟨name, strict, args⟩ :: cs => (Call.mk name strict args).render (shownAll args) :: shownCalls cs

end

end Expr

end EventRules
