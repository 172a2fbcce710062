import EventRules.Lowering.Monitor
import EventRules.Lowering.Pipeline

/-!
Lowering expressions, and calculating those that are constant.
-/

namespace EventRules.Lowering
set_option autoImplicit false

open Routine

/-- A call is a monitor, a filter of the host or a chain of one element. -/
def call (scope : Scope) (c : OperandCall) : Lower Code := do
  if c.strict && c.name.text != "count" then fail (fault c .strict)
  match MonitorKind.ofName? c.name.text with
  | some kind => monitor scope kind c
  | none =>
    if scope.registry.isFilter c.name.text then
      if !c.args.isEmpty then fail (fault c .filterArguments)
      return .filter c.name.text
    else if isElement scope.registry c.name.text then chain scope [c]
    else fail (.unknownFunction c.name)

/-- The code of a bound, calculated if it can be. -/
def bound (code : Code) : Code :=
  match code.fold? with
  | some v => .literal v
  | none => code

/-- Both bounds have one type, and that is a numeric one. -/
def checkBounds (scope : Scope) (opening : Token) (lower upper : Expr) (closing : Token) :
    Except LoweringError Unit := do
  let l ← (lower.type scope.constants).mapError .typing
  let u ← (upper.type scope.constants).mapError .typing
  if !l.isNumeric || l != u then throw (.typing (.bounds opening closing l u))

/-- An anonymous function has one parameter; the second one of several is in the way. -/
def parameter (params : List Token) (body : Expr) : Except LoweringError String :=
  match params with
  | [name] => .ok name.text
  | params => .error (.parameters params.length ((params[1]?.map Token.position).getD body.position))

mutual

def lower (scope : Scope) : Expr → Lower Code
  | .scalar literal _ => pure (.literal literal.value)
  | .ident name => ofExcept (scope.code name)
  | .binary op left right => do
    let l ← lower scope left
    let r ← lower scope right
    return .binary op l r
  | .unary op operand => do
    let code ← lower scope operand
    return match op with
      | .not => .not code
      | .increment => .step true code
      | .decrement => .step false code
  | .compare op operand => ofExcept (scope.comparison op operand)
  | .range opening below above closing => do
    ofExcept (checkBounds scope opening below above closing)
    let low ← lower scope below
    let high ← lower scope above
    return .binary .and (.compare opening.lowerOp (bound low)) (.compare closing.upperOp (bound high))
  | .arrow stages => do
    let name ← drawName "arrow"
    let mark := (← state).fragments.length
    let codes ← lowerStages scope stages
    let owned := (← state).namesSince mark
    emit name (.arrow ⟨codes, owned⟩)
  | .call ⟨name, strict, args⟩ => call scope ⟨name, strict, operands scope args⟩
  | .chain calls => chain scope (operandCalls scope calls)
  | .lambda params body => do
    let name ← ofExcept (parameter params body)
    lower { scope with parameter := some name } body

def lowerStages (scope : Scope) : List (Stage Expr) → Lower (List Code)
  | [] => return []
  | ⟨opening, body⟩ :: stages => do
    if body.containsArrow then fail (.nestedArrow opening.position)
    let code ← lower scope body
    let codes ← lowerStages scope stages
    return code :: codes

def operands (scope : Scope) : List Expr → List Operand
  | [] => []
  | e :: es => ⟨e, lower scope e⟩ :: operands scope es

def operandCalls (scope : Scope) : List (Call Expr) → List OperandCall
  | [] => []
  | ⟨name, strict, args⟩ :: calls => ⟨name, strict, operands scope args⟩ :: operandCalls scope calls

end

/-- Expressions of literals, names and operators. -/
def isConstant : Expr → Bool
  | .scalar _ _ | .ident _ => true
  | .binary _ left right => isConstant left && isConstant right
  | .unary _ operand => isConstant operand
  | _ => false

/-- The value of an expression when a rule is compiled. Nothing that it emits is kept. -/
def constant (scope : Scope) (e : Expr) : Except LoweringError Value := do
  if !isConstant e then throw (.notConstant e.shown e.position)
  let code ← ((lower scope e).run .empty).1
  match code.fold? with
  | some v => return v
  | none => throw (.notEvaluable e.shown e.position)

end EventRules.Lowering
