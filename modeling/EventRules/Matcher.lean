import EventRules.Compile
import EventRules.Evaluation

/-!
Matchers: rules that are fed with events, one after the other, and say of each whether they hold.
-/

namespace EventRules
set_option autoImplicit false

structure Matcher where
  rule : Rule
  env : Environment

/-- A matcher that has seen no event. -/
def Rule.matcher (rule : Rule) : Matcher := ⟨rule, ⟨rule.constants, .empty⟩⟩

/-- What a matcher says of an event, and what happened on the way. -/
structure Answer where
  event : Event
  result : Except RunError Bool
  /-- in the order in which it happened -/
  trace : List TraceEntry

/-- The lines of a log about an evaluation. -/
def traceLog (trace : List TraceEntry) : List String := trace.filterMap TraceEntry.line?

def Answer.log (a : Answer) : List String :=
  let verdict := match a.result with
    | .ok holds => [s!"{a.event.shown} -> {(Value.boolean holds).asText}"]
    | .error _ => []
  traceLog a.trace ++ verdict

namespace Matcher

/-- Feeds one event. -/
def feed (m : Matcher) (event : Event) : Answer × Matcher :=
  let frame : Frame := ⟨event, none, m.rule.fragments, m.rule.registry⟩
  let (r, s) := (evaluate m.rule.entry event.value frame).run ⟨m.env, []⟩
  (⟨event, r.map Value.asBool, s.trace.reverse⟩, { m with env := s.env })

/-- Feeds events until one fails. -/
def feedAll (m : Matcher) : List Event → List Answer × Matcher
  | [] => ([], m)
  | event :: events =>
    let (answer, m) := m.feed event
    match answer.result with
    | .error _ => ([answer], m)
    | .ok _ =>
      let (answers, m) := m.feedAll events
      (answer :: answers, m)

/-- The result of the last answer; without any the rule does not hold. -/
def lastResult (answers : List Answer) : Except RunError Bool :=
  (answers.getLast?.map Answer.result).getD (.ok false)

/-- Forgets all events; the constants are kept. -/
def reset (m : Matcher) : Matcher := { m with env := m.env.clearStates }

end Matcher

end EventRules
