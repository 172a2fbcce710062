import EventRules.Arrow.Plan
import EventRules.Chain.Plan
import EventRules.Monitor.Plan

/-!
Fragments: the parts of a compiled rule that remember something from event to event.
-/

namespace EventRules
set_option autoImplicit false

inductive FragmentBody where
  | chain (plan : Chain.Plan)
  | arrow (plan : Arrow.Plan)
  | monitor (plan : Monitor.Plan)
deriving DecidableEq

structure Fragment where
  name : String
  body : FragmentBody
deriving DecidableEq

inductive FragmentState where
  | chain (state : Chain.State)
  | arrow (state : Arrow.State)
  | monitor (state : Monitor.State)
deriving DecidableEq

namespace FragmentBody

/-- The state of a fragment that has seen no event. -/
def initial : FragmentBody → FragmentState
  | chain _ => .chain .initial
  | arrow _ => .arrow .initial
  | monitor plan => .monitor plan.initial

def shown : FragmentBody → String
  | chain plan => plan.shown
  | arrow plan => plan.shown
  | monitor plan => plan.shown

end FragmentBody

def Fragment.shown (f : Fragment) : String := s!"{f.name}() := {f.body.shown}"

end EventRules
