import EventRules.Code

/-!
Monitors: conditions with a memory. `count` holds on every so many matches, `keep` once its condition
has held for a time, `delay` once a time has passed, and `slope` tests how fast a reading changes.
-/

namespace EventRules.Monitor
set_option autoImplicit false

inductive Plan where
  /-- the strict form counts matches without a miss between them -/
  | count (condition : Code) (times : Nat) (strict : Bool)
  | keep (condition : Code) (ms : Int64)
  | delay (ms : Int64)
  | slope (condition : Code) (unit : Int64)
deriving DecidableEq

inductive State where
  /-- matches since the monitor last held -/
  | count (seen : Nat)
  /-- when the condition began to hold -/
  | keep (since : Option Int64)
  /-- when the wait began -/
  | delay (since : Option Int64)
  /-- the reading before, and its time -/
  | slope (previous : Option (Float × Int64))
deriving DecidableEq

namespace Plan

def initial : Plan → State
  | count .. => .count 0
  | keep .. => .keep none
  | delay .. => .delay none
  | slope .. => .slope none

def shown : Plan → String
  | count condition times strict =>
    let marker := if strict then "!" else ""
    s!"count{marker}({condition.shown}, {times})"
  | keep condition ms => s!"keep({condition.shown}, {ms.toInt}ms)"
  | delay ms => s!"delay({ms.toInt}ms)"
  | slope condition unit => s!"slope({condition.shown}, {unit.toInt}ms)"

end Plan

end EventRules.Monitor
