import EventRules.Arrow.Plan
import EventRules.Session

/-!
One call of an arrow. A stage that does not hold is tried again on the next event; when the last stage
holds, the arrow and everything inside it start again.
-/

namespace EventRules.Arrow
set_option autoImplicit false

open Routine Step

/-- The time that the stage tested next is measured from. -/
def State.anchor (s : State) : Option Int64 := if 0 < s.pointer then s.lastAdvance else none

def run (eval : Evaluator) (plan : Plan) (frame : Frame) : Step State Bool := do
  let state ← own
  match plan.stages[state.pointer]? with
  | none =>
    setOwn .initial
    return false
  | some stage =>
    let held ← lift (eval.holds stage frame.event.value { frame with anchor := state.anchor })
    if !held then return false
    if state.pointer + 1 < plan.stages.length then
      setOwn ⟨state.pointer + 1, some frame.event.timestamp⟩
      return false
    setOwn .initial
    lift (Run.resetStates plan.owned)
    return true

end EventRules.Arrow
