import EventRules.Chain.Aggregate
import EventRules.Chain.Retention

/-!
One call of a chain: the filters, the retention, the reduction and the verdict.
-/

namespace EventRules.Chain
set_option autoImplicit false

open Routine Step

/-- Whether the event passes all filters; those behind a failing one are not asked. -/
def admits (eval : Evaluator) (frame : Frame) : List Test → Run Bool
  | [] => pure true
  | test :: tests => do
    let passed ← match test with
      | .condition code => eval.holds code frame.event.value frame
      | .extension name => do
        let f ← Run.extension (frame.registry.filter name)
        pure (f frame.event)
    if passed then admits eval frame tests else return false

/-- The verdict on the reduced value. -/
def judge (eval : Evaluator) (frame : Frame) (verdict : Test) (aggregate : Value) : Run Bool :=
  match verdict with
  | .condition code => eval.holds code aggregate frame
  | .extension name => do
    let f ← Run.extension (frame.registry.meet name)
    return f (aggregate.toNumber?.getD 0)

def takeFrom (take : Option (Int64 × Option Int64)) (batch : List Event) : Option (List Event) :=
  match take with
  | none => some batch
  | some (start, stop) => slice? batch start stop

def checkTake (name : String) : Option (Int64 × Option Int64) → Run Unit
  | some (start, some stop) =>
    if isEmptyTake start (some stop) then fail (.startAfterEnd name start stop) else pure ()
  | _ => pure ()

def run (eval : Evaluator) (name : String) (plan : Plan) (frame : Frame) : Step State Bool := do
  lift (checkTake name plan.take)
  let admitted ← lift (admits eval frame plan.filters)
  let (retained, handed) := retain plan.sampler (← own).retained frame.event admitted
  setOwn ⟨retained, handed.getD []⟩
  match handed.bind (takeFrom plan.take) with
  | none => return false
  | some batch =>
    let value ← lift (aggregate eval plan.aggregation batch frame)
    let verdict ← lift (judge eval frame plan.verdict value)
    lift (Run.note (.judged name batch.length value verdict))
    if verdict && plan.clears then setOwn { (← own) with retained := [] }
    return verdict

end EventRules.Chain
