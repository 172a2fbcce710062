import EventRules.Monitor.Plan
import EventRules.Session

/-!
One call of a monitor.
-/

namespace EventRules.Monitor
set_option autoImplicit false

open Routine Step Number

def runCount (eval : Evaluator) (condition : Code) (times : Nat) (strict : Bool) (seen : Nat)
    (frame : Frame) : Step State Bool := do
  let held ← lift (eval.holds condition frame.event.value frame)
  if !held then
    if strict then setOwn (.count 0)
    return false
  if times ≤ seen + 1 then
    setOwn (.count 0)
    return true
  setOwn (.count (seen + 1))
  return false

def runKeep (eval : Evaluator) (condition : Code) (ms : Int64) (since : Option Int64)
    (frame : Frame) : Step State Bool := do
  let held ← lift (eval.holds condition frame.event.value frame)
  if !held then
    setOwn (.keep none)
    return false
  let start := since.getD frame.event.timestamp
  if ms ≤ subClamped frame.event.timestamp start then
    setOwn (.keep none)
    return true
  setOwn (.keep (some start))
  return false

/-- Inside an arrow the wait began when the stage before held, and nothing has to be remembered. -/
def runDelay (ms : Int64) (since : Option Int64) (frame : Frame) : Step State Bool := do
  let start := frame.anchor.getD (since.getD frame.event.timestamp)
  if ms ≤ subClamped frame.event.timestamp start then
    setOwn (.delay none)
    return true
  if frame.anchor.isNone then setOwn (.delay (some start))
  return false

/-- The change of the reading per unit of time is the value under test. -/
def runSlope (eval : Evaluator) (condition : Code) (unit : Int64)
    (previous : Option (Float × Int64)) (frame : Frame) : Step State Bool := do
  match frame.event.value.toNumber? with
  | none => return false
  | some current =>
    setOwn (.slope (some (current, frame.event.timestamp)))
    match previous with
    | none => return false
    | some (value, at_) =>
      let elapsed := subClamped frame.event.timestamp at_
      if elapsed = 0 then return false
      let change := (current - value) / (Float.ofInt elapsed.toInt / Float.ofInt unit.toInt)
      lift (eval.holds condition (.float change) frame)

/-- A state of another monitor counts as no state. -/
def run (eval : Evaluator) (plan : Plan) (frame : Frame) : Step State Bool := do
  let state ← own
  match plan with
  | .count condition times strict =>
    let seen := match state with
      | .count seen => seen
      | _ => 0
    setOwn (.count seen)
    runCount eval condition times strict seen frame
  | .keep condition ms =>
    let since := match state with
      | .keep since => since
      | _ => none
    setOwn (.keep since)
    runKeep eval condition ms since frame
  | .delay ms =>
    let since := match state with
      | .delay since => since
      | _ => none
    setOwn (.delay since)
    runDelay ms since frame
  | .slope condition unit =>
    let previous := match state with
      | .slope previous => previous
      | _ => none
    setOwn (.slope previous)
    runSlope eval condition unit previous frame

end EventRules.Monitor
