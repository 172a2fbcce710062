import EventRules.Lowering.Argument

/-!
Lowering calls of monitors.
-/

namespace EventRules.Lowering
set_option autoImplicit false

open Routine

inductive MonitorKind where
  | count
  | keep
  | delay
  | slope
deriving DecidableEq, Repr

namespace MonitorKind

def ofName? : String → Option MonitorKind
  | "count" => some count
  | "keep" => some keep
  | "delay" => some delay
  | "slope" => some slope
  | _ => none

def parameters : MonitorKind → String
  | count => "(condition, times)"
  | keep => "(condition, duration)"
  | delay => "(duration)"
  | slope => "(condition[, unit])"

end MonitorKind

/-- A slope without a unit is measured per millisecond. -/
def defaultSlopeUnit : Int64 := 1

def monitorPlan (scope : Scope) (kind : MonitorKind) (c : OperandCall) : Lower Monitor.Plan :=
  match kind, c.args with
  | .count, [test, times] => do
    let code ← condition c test
    return .count code (← ofExcept (countArgument scope c times.expr)) c.strict
  | .keep, [test, time] => do
    let code ← condition c test
    return .keep code (← ofExcept (durationArgument scope c time.expr))
  | .delay, [time] => return .delay (← ofExcept (durationArgument scope c time.expr))
  | .slope, [test] => return .slope (← condition c test) defaultSlopeUnit
  | .slope, [test, unit] => do
    let code ← condition c test
    return .slope code (← ofExcept (durationArgument scope c unit.expr))
  | kind, args => fail (fault c (.arity (c.name.text ++ kind.parameters) args.length))

/-- The name is drawn before the arguments are lowered. -/
def monitor (scope : Scope) (kind : MonitorKind) (c : OperandCall) : Lower Code := do
  let name ← drawName c.name.text
  emit name (.monitor (← monitorPlan scope kind c))

end EventRules.Lowering
