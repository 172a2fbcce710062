import EventRules.Lowering.Argument

/-!
Lowering chains. The elements of a chain stand in the order filters, collect or a sampler, take,
aggregation, verdict, clear; the aggregation and the verdict cannot be left out.
-/

namespace EventRules.Lowering
set_option autoImplicit false

open Routine

inductive Phase where
  | start
  | filter
  | collect
  | sample
  | take
  | aggregate
  | verdict
  | clear
deriving DecidableEq, Repr

/-- Whether an element of phase `next` may follow one of phase `p`. -/
def Phase.accepts (p next : Phase) : Bool :=
  match p with
  | .start => [.filter, .collect].contains next
  | .filter => [.filter, .collect, .sample, .take, .aggregate].contains next
  | .collect => [.sample, .take, .aggregate].contains next
  | .sample => [.take, .aggregate].contains next
  | .take => next == .aggregate
  | .aggregate => next == .verdict
  | .verdict => next == .clear
  | .clear => false

/-- One element of a chain with its arguments lowered. -/
inductive Element where
  | filter (test : Option Test)
  | collect
  | sample (sampler : Chain.Sampler)
  | take (start : Int64) (stop : Option Int64)
  | aggregate (aggregation : Chain.Aggregation)
  | verdict (test : Test)
  | clear

def Element.phase : Element → Phase
  | filter _ => .filter
  | collect => .collect
  | sample _ => .sample
  | take _ _ => .take
  | aggregate _ => .aggregate
  | verdict _ => .verdict
  | clear => .clear

def elementNames : List String :=
  ["filter", "collect", "limit", "window", "take", "sum", "avg", "min", "max", "stddev", "count",
    "hitRate", "meet", "clear"]

def isElement (registry : Registry) (name : String) : Bool :=
  elementNames.contains name || (registry.kind? name).isSome

def arity (c : OperandCall) (expected : String) : LoweringError :=
  fault c (.arity expected c.args.length)

/-- An element that takes no arguments. -/
def plain (c : OperandCall) (e : Element) : Lower Element :=
  if c.args.isEmpty then pure e else fail (arity c "no arguments")

/-- A call of a filter extension without arguments stands for the extension itself. -/
def filterExtension? (scope : Scope) (e : Expr) : Option String :=
  match e with
  | .call ⟨name, _, []⟩ => if scope.registry.isFilter name.text then some name.text else none
  | _ => none

def filterElement (scope : Scope) (c : OperandCall) : Lower Element :=
  match c.args with
  | [] => return .filter none
  | [test] =>
    match filterExtension? scope test.expr with
    | some name => return .filter (some (.extension name))
    | none => return .filter (some (.condition (← condition c test)))
  | _ => fail (arity c "at most one condition")

def sampleElement (scope : Scope) (c : OperandCall) (wrap : Chain.Extent → Chain.Sampler) :
    Lower Element :=
  match c.args with
  | [extent] => return .sample (wrap (← ofExcept (extentArgument scope c extent.expr)))
  | _ => fail (arity c (c.name.text ++ "(count) or (duration)"))

def takeElement (scope : Scope) (c : OperandCall) : Lower Element :=
  match c.args with
  | [start] => return .take (← ofExcept (integerArgument scope c start.expr)) none
  | [start, stop] => do
    let s ← ofExcept (integerArgument scope c start.expr)
    return .take s (some (← ofExcept (integerArgument scope c stop.expr)))
  | _ => fail (arity c "one or two indices")

def conditionElement (c : OperandCall) (wrap : Code → Element) : Lower Element :=
  match c.args with
  | [test] => return wrap (← condition c test)
  | _ => fail (arity c "exactly one condition")

def extensionElement (scope : Scope) (c : OperandCall) : Lower Element :=
  let name := c.name.text
  match scope.registry.kind? name with
  | some .filter => plain c (.filter (some (.extension name)))
  | some .calculator => plain c (.aggregate (.extension name))
  | some .meet => plain c (.verdict (.extension name))
  | none => fail (.unknownOperator c.name)

def element (scope : Scope) (c : OperandCall) : Lower Element := do
  if c.strict then fail (fault c .strict)
  match c.name.text with
  | "filter" => filterElement scope c
  | "collect" => plain c .collect
  | "limit" => sampleElement scope c .limit
  | "window" => sampleElement scope c .window
  | "take" => takeElement scope c
  | "sum" => plain c (.aggregate .sum)
  | "avg" => plain c (.aggregate .avg)
  | "min" => plain c (.aggregate .min)
  | "max" => plain c (.aggregate .max)
  | "stddev" => plain c (.aggregate .stddev)
  | "count" => plain c (.aggregate .count)
  | "hitRate" => conditionElement c fun code => .aggregate (.hitRate code)
  | "meet" => conditionElement c fun code => .verdict (.condition code)
  | "clear" => plain c .clear
  | _ => extensionElement scope c

/-- The elements of a chain up to some place. -/
structure Draft where
  phase : Phase
  /-- the last element, if there is one -/
  last : Option Token
  filters : List Test
  sampler : Option Chain.Sampler
  take : Option (Int64 × Option Int64)
  aggregation : Option Chain.Aggregation
  verdict : Option Test
  clears : Bool

namespace Draft

def empty : Draft := ⟨.start, none, [], none, none, none, none, false⟩

/-- Whether a chain that begins with the element lets every event in. -/
def lacksFilter (d : Draft) (e : Element) : Bool :=
  d.phase == .start && !d.phase.accepts e.phase

def samplerName : Chain.Sampler → String
  | .limit _ => "limit"
  | .window _ => "window"

/-- The sampler that the element would be added to. -/
def samplerBefore (d : Draft) (e : Element) : Option Chain.Sampler :=
  if e.phase = .sample then d.sampler else none

def record (d : Draft) : Element → Draft
  | .filter test => { d with filters := d.filters ++ test.toList }
  | .collect => d
  | .sample sampler => { d with sampler := some sampler }
  | .take start stop => { d with take := some (start, stop) }
  | .aggregate aggregation => { d with aggregation := some aggregation }
  | .verdict test => { d with verdict := some test }
  | .clear => { d with clears := true }

/-- Appends an element, if it may stand there. -/
def push (d : Draft) (name : Token) (e : Element) : Except LoweringError Draft :=
  match d.samplerBefore e with
  | some existing => .error (.combined name (samplerName existing))
  | none =>
    let phase := if d.lacksFilter e then .filter else d.phase
    if phase.accepts e.phase then .ok { d.record e with phase := e.phase, last := some name }
    else .error (.misplaced d.last name)

def plan? (d : Draft) : Option Chain.Plan :=
  match d.aggregation, d.verdict with
  | some aggregation, some verdict =>
    some ⟨d.filters, d.sampler, d.take, aggregation, verdict, d.clears⟩
  | _, _ => none

end Draft

/-- Each element is lowered before its place is judged. -/
def pipeline (scope : Scope) : Draft → List OperandCall → Lower Draft
  | d, [] => return d
  | d, c :: cs => do
    let e ← element scope c
    if d.lacksFilter e then warn c.name.text
    let d ← ofExcept (d.push c.name e)
    pipeline scope d cs

def chainPlan (scope : Scope) (calls : List OperandCall) : Lower Chain.Plan := do
  let draft ← pipeline scope .empty calls
  match draft.plan? with
  | some plan => return plan
  | none => fail (.unfinishedChain ((calls.getLast?.map Call.position).getD .nowhere))

/-- The name is drawn before the elements are lowered. -/
def chain (scope : Scope) (calls : List OperandCall) : Lower Code := do
  let name ← drawName "chain"
  let plan ← withinChain name (chainPlan scope calls)
  emit name (.chain plan)

end EventRules.Lowering
