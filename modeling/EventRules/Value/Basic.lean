import EventRules.Number.DecimalOfFloat
import EventRules.Number.FloatRead
import EventRules.Number.FloatText
import EventRules.Number.Signed
import EventRules.Text.Blank

/-!
Values: what an event reads, what a constant holds and what a calculation gives. Text that spells a
number reads as that number.
-/

namespace EventRules
set_option autoImplicit false

inductive Value where
  | null
  | boolean (b : Bool)
  | integer (n : Int64)
  | float (x : Float)
  | text (s : String)
deriving DecidableEq, Inhabited

namespace Value

open Number

/-- Floats in messages and results: positional from 10 ^ -4 up to 10 ^ 16, always with a point. -/
def floatStyle : FloatStyle where
  plainFrom := -4
  plainBelow := 16
  pointZero := true
  expPlus := false
  tie := .upper

/-- Floats as plain text: always positional, and without a point if they are whole. -/
def plainFloatStyle : FloatStyle where
  plainFrom := -400
  plainBelow := 400
  pointZero := false
  expPlus := false
  tie := .upper

def isTruthy : Value → Bool
  | .null => false
  | .boolean b => b
  | .integer n => n != 0
  | .float x => x != 0
  | .text s => !s.isEmpty

/-- The reading of a value as a condition. -/
def asBool (v : Value) : Bool := v.isTruthy

def asFloat? : Value → Option Float
  | .integer n => some (Float.ofInt n.toInt)
  | .float x => some x
  | _ => none

/-- A whole float counts as an integer, cut off at the ends of the range. -/
def asInt? : Value → Option Int64
  | .integer n => some n
  | .float x => (Binary.ofFloat? x).bind fun b =>
      if b.isWhole then some (clamp64 b.truncate) else none
  | _ => none

def asText : Value → String
  | .null => "null"
  | .boolean b => if b then "true" else "false"
  | .integer n => toString n.toInt
  | .float x => plainFloatStyle.render x
  | .text s => s

/-- The number a value reads as. Text is trimmed, and an infinity cannot be spelled. -/
def toNumber? : Value → Option Float
  | .integer n => some (Float.ofInt n.toInt)
  | .float x => some x
  | .text s => (readFloat? (Text.trim s.toList)).filter Float.isFinite
  | _ => none

def isNumeric : Value → Bool
  | .integer _ | .float _ => true
  | _ => false

def isInteger : Value → Bool
  | .integer _ => true
  | _ => false

def typeName : Value → String
  | .null => "null"
  | .boolean _ => "boolean"
  | .integer _ => "integer"
  | .float _ => "float"
  | .text _ => "string"

/-- A value as it is shown: text in quotes, a float with its point. -/
def shown : Value → String
  | .text s => s!"'{s}'"
  | .float x => floatStyle.render x
  | v => v.asText

/-- The decimal in which a number is compared and calculated. -/
def toDecimal? : Value → Option Decimal
  | .integer n => some (Decimal.ofInt64 n)
  | .float x => Decimal.ofFloat? x
  | .text s => (Value.text s).toNumber?.bind Decimal.ofFloat?
  | _ => none

/-- A whole decimal in range is an integer, any other decimal a float. -/
def ofDecimal (d : Decimal) : Value :=
  if d.isWhole then
    match fit64? d.truncate with
    | some n => .integer n
    | none => .float d.toFloat
  else .float d.toFloat

end Value

/-- One reading: what was read, when in milliseconds, and under which id. -/
structure Event where
  id : String
  value : Value
  timestamp : Int64
deriving DecidableEq, Inhabited

def Event.shown (e : Event) : String := s!"{e.value.shown}@{e.timestamp.toInt}"

end EventRules
