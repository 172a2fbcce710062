import EventRules.Routine
import EventRules.Extension
import EventRules.Fragment
import EventRules.Typing

/-!
Lowering turns expressions into code. What has to be remembered between events becomes a fragment under
a fresh name, and the code calls it. The work done before an error is kept.
-/

namespace EventRules
set_option autoImplicit false

namespace Lowering

/-- What is wrong with the arguments of a call. An argument is given as it is shown. -/
inductive ArgumentFault where
  | strict
  | filterArguments
  | arity (expected : String) (got : Nat)
  | notCondition (argument : String)
  | notConstant (argument : String)
  | notInteger (argument : String)
  | countNotPositive (n : Int64)
  | notCount (argument : String)
  | durationNotPositive (ms : Int64)
  | notDuration (argument : String)
  | notPositive (argument : String)
  | notExtent (argument : String)
deriving DecidableEq

def ArgumentFault.message : ArgumentFault → String
  | strict => "the strict marker '!' is only supported by count"
  | filterArguments => "filter UDFs take no arguments"
  | arity expected got => s!"expected {expected}, got {got} argument(s)"
  | notCondition argument => s!"expected a condition, got '{argument}'"
  | notConstant argument => s!"'{argument}' must be a literal or a constant"
  | notInteger argument => s!"expected an integer, got '{argument}'"
  | countNotPositive n => s!"count must be positive, got {n.toInt}"
  | notCount argument => s!"expected a positive integer, got '{argument}'"
  | durationNotPositive ms => s!"duration must be positive, got {ms.toInt}ms"
  | notDuration argument => s!"expected a duration, got '{argument}'"
  | notPositive argument => s!"'{argument}' must be greater than zero"
  | notExtent argument => s!"expected a count or a duration, got '{argument}'"

end Lowering

/-- Why an expression or a program cannot be lowered. -/
inductive LoweringError where
  | undefined (name : Token)
  | unknownFunction (name : Token)
  | unknownOperator (name : Token)
  /-- two samplers in one chain -/
  | combined (name : Token) (existing : String)
  /-- an element out of the order of chains; none stands before the first one -/
  | misplaced (previous : Option Token) (name : Token)
  | unfinishedChain (position : Position)
  | argument (name : Token) (fault : Lowering.ArgumentFault)
  | comparedWithSubject (position : Position)
  | comparedWithExpression (position : Position)
  | notOrdered (op : CompareOp) (position : Position)
  | nestedArrow (position : Position)
  | parameters (count : Nat) (position : Position)
  | notConstant (expression : String) (position : Position)
  | notEvaluable (expression : String) (position : Position)
  | bareBeforeEnd (position : Position)
  | missingRule
  | typing (error : TypingError)
deriving DecidableEq

namespace LoweringError

def position? : LoweringError → Option Position
  | undefined name | unknownFunction name | unknownOperator name | combined name _
  | misplaced _ name | argument name _ => some name.position
  | unfinishedChain position | comparedWithSubject position | comparedWithExpression position
  | notOrdered _ position | nestedArrow position | parameters _ position
  | notConstant _ position | notEvaluable _ position | bareBeforeEnd position => some position
  | missingRule => none
  | typing error => some error.position

def message : LoweringError → String
  | undefined name => s!"Undefined variable: '{name.text}'"
  | unknownFunction name => s!"Unknown function '{name.text}'"
  | unknownOperator name => s!"chain expression does not support '{name.text}' operator"
  | combined name existing => s!"'{name.text}' cannot be combined with '{existing}'"
  | misplaced (some previous) name =>
    s!"'{previous.text}' operator cannot be followed by '{name.text}' operator"
  | misplaced none name => s!"'{name.text}' cannot start a chain"
  | unfinishedChain _ => "chain expression must end with 'meet' (optionally followed by 'clear')"
  | argument name fault => s!"Invalid argument for '{name.text}': {fault.message}"
  | comparedWithSubject _ => "Comparison expression parameter cannot be the value under test"
  | comparedWithExpression _ => "Comparison expression parameter cannot be an expression"
  | notOrdered op _ => s!"'{op.symbol}' cannot be followed by non-numeric type"
  | nestedArrow _ => "Arrow expressions cannot be nested"
  | parameters count _ => s!"Anonymous functions take exactly one parameter, got {count}"
  | notConstant expression _ => s!"'{expression}' is not a compile-time constant"
  | notEvaluable expression _ => s!"'{expression}' cannot be evaluated at compile time"
  | bareBeforeEnd _ => "Only the final statement may be a bare expression"
  | missingRule => "Program has no rule expression"
  | typing error => error.message

end LoweringError

namespace Lowering

/-- A chain that begins with something else than a filter lets every event in. -/
structure Warning where
  chain : String
  operator : String
deriving DecidableEq

def Warning.message (w : Warning) : String :=
  s!"{w.chain}: pipeline starts with '{w.operator}', inserting filter()"

/-- What lowering has produced so far. -/
structure Output where
  /-- in the order of emission: a fragment stands after those it calls -/
  fragments : List Fragment
  /-- how many names have been drawn -/
  issued : Nat
  /-- the chain that is being lowered -/
  pendingChain : Option String
  /-- in the order in which they arose -/
  warnings : List Warning
deriving DecidableEq

def Output.empty : Output := ⟨[], 0, none, []⟩

instance : Inhabited Output := ⟨.empty⟩

/-- The names of the fragments after the first `mark` ones. -/
def Output.namesSince (o : Output) (mark : Nat) : List String :=
  (o.fragments.drop mark).map Fragment.name

/-- What the names in an expression mean. -/
structure Scope where
  constants : Keyed Value
  registry : Registry
  /-- the parameter of the innermost anonymous function -/
  parameter : Option String

abbrev Lower (α : Type) : Type := Routine Output LoweringError α

open Routine

/-- A name that has not been drawn before. -/
def drawName (stem : String) : Lower String := fun o =>
  (.ok s!"{stem}_{o.issued + 1}", { o with issued := o.issued + 1 })

/-- Appends a fragment and calls it. -/
def emit (name : String) (body : FragmentBody) : Lower Code := fun o =>
  (.ok (.call name o.fragments.length), { o with fragments := o.fragments ++ [⟨name, body⟩] })

def warn (operator : String) : Lower Unit :=
  change fun o => { o with warnings := o.warnings ++ [⟨o.pendingChain.getD "chain", operator⟩] }

/-- Runs `m` inside a chain and then returns to the chain around it, also after an error. -/
def withinChain {α : Type} (chain : String) (m : Lower α) : Lower α := fun o =>
  let (r, t) := m.run { o with pendingChain := some chain }
  (r, { t with pendingChain := o.pendingChain })

/-- The subject for the parameter, and the value of a constant for its name. -/
def Scope.code (scope : Scope) (name : Token) : Except LoweringError Code :=
  if scope.parameter = some name.text then .ok .subject
  else
    match scope.constants.get? name.text with
    | some v => .ok (.literal v)
    | none => .error (.undefined name)

/-- A comparison of the subject with a literal or a constant. Only numbers are ordered: a literal has to
be one, a constant may also spell one. -/
def Scope.comparison (scope : Scope) (op : CompareOp) (operand : Expr) : Except LoweringError Code := do
  let (value, isNumber) ← match operand with
    | .scalar literal _ => pure (literal.value, literal.value.isNumeric)
    | .ident name =>
      if scope.parameter = some name.text then throw (.comparedWithSubject name.position)
      match scope.constants.get? name.text with
      | some v => pure (v, v.toNumber?.isSome)
      | none => throw (.undefined name)
    | _ => throw (.comparedWithExpression operand.position)
  if !op.isEquality && !isNumber then throw (.notOrdered op operand.position)
  return .compare op (.literal value)

end Lowering

end EventRules
