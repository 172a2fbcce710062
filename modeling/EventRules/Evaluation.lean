import EventRules.Arrow.Run
import EventRules.Chain.Run
import EventRules.Monitor.Run

/-!
Evaluation of code. While a fragment runs, its state is out of the environment; it is put back in the
end, whether the run succeeds or fails.
-/

namespace EventRules
set_option autoImplicit false

open Routine

/-- Evaluates code; `call` runs a fragment. The logical operators skip their right side if the left one
decides. -/
def Code.evaluate (call : String → Nat → Frame → Run Bool) (code : Code) (subject : Value)
    (frame : Frame) : Run Value :=
  match code with
  | .literal v => pure v
  | .subject => pure subject
  | .binary .and left right => do
    let l ← left.evaluate call subject frame
    if !l.asBool then return .boolean false
    let r ← right.evaluate call subject frame
    return .boolean r.asBool
  | .binary .or left right => do
    let l ← left.evaluate call subject frame
    if l.asBool then return .boolean true
    let r ← right.evaluate call subject frame
    return .boolean r.asBool
  | .binary op left right => do
    let l ← left.evaluate call subject frame
    let r ← right.evaluate call subject frame
    Run.calculate (Value.binary op l r)
  | .not inner => do
    let v ← inner.evaluate call subject frame
    return .boolean !v.asBool
  | .step up operand => do
    let v ← operand.evaluate call subject frame
    Run.calculate (Value.arithmetic .add v (Code.stepDelta up))
  | .compare op operand => do
    let v ← operand.evaluate call subject frame
    return .boolean (Value.compare op subject v)
  | .call fragment index => Value.boolean <$> call fragment index frame
  | .filter extension => do
    let f ← Run.extension (frame.registry.filter extension)
    return .boolean (f { frame.event with value := subject })

/-- Runs a step on the state of a fragment and puts the state back. -/
def withState {State : Type} (name : String) (wrap : State → FragmentState) (state : State)
    (step : Step State Bool) : Run Bool := fun s =>
  let without := { s.env with states := s.env.states.remove name }
  let (r, (state, t)) := step.run (state, { s with env := without })
  (r, { t with env := { t.env with states := t.env.states.put name (wrap state) } })

/-- A state that does not belong to the body of the fragment is left alone and makes the call fail. -/
def Fragment.run (eval : Evaluator) (f : Fragment) (frame : Frame) : Run Bool := do
  Run.note (.called f.name)
  let s ← state
  match f.body, (s.env.states.get? f.name).getD f.body.initial with
  | .chain plan, .chain own => withState f.name .chain own (Chain.run eval f.name plan frame)
  | .arrow plan, .arrow own => withState f.name .arrow own (Arrow.run eval plan frame)
  | .monitor plan, .monitor own => withState f.name .monitor own (Monitor.run eval plan frame)
  | _, other => withState f.name (fun _ => other) () (fail (.missingFragment f.name))

/-- Calls a fragment inside which calls nest less than `depth` deep. -/
def callFragment : (depth : Nat) → String → Nat → Frame → Run Bool
  | 0, name, _, _ => fail (.missingFragment name)
  | depth + 1, name, index, frame =>
    match frame.fragments[index]? with
    | some f =>
      if f.name = name then f.run (Code.evaluate (callFragment depth)) frame
      else fail (.missingFragment name)
    | none => fail (.missingFragment name)

/-- The value of code. A fragment calls only fragments before it, so calls do not nest deeper than
there are fragments. -/
def evaluate : Evaluator := fun code subject frame =>
  code.evaluate (callFragment frame.fragments.length) subject frame

end EventRules
