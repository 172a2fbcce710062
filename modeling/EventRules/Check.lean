import EventRules.Exchange
import EventRules.Matcher

/-!
Checking a rule: compiling it and feeding it with events that are given as text.
-/

namespace EventRules
set_option autoImplicit false

inductive CheckError where
  | compile (error : CompileError) (source : String)
  | run (error : RunError)
  | input (error : InputError)

def CheckError.message : CheckError → String
  | compile error source => error.render source
  | run error => s!"Runtime error: {error.message}"
  | input error => error.message

structure CheckRequest where
  rule : String
  events : Option String
  definitions : List (String × Value)
  /-- the rule is parsed only -/
  syntaxOnly : Bool
  /-- the rule is compiled only -/
  codeOnly : Bool

/-- An event and whether the rule holds after it. -/
structure CheckedEvent where
  event : Event
  holds : Bool
deriving DecidableEq

def CheckedEvent.toJson (c : CheckedEvent) : Json :=
  match c.event.toJson with
  | .object members => .object (Json.insert "matched" (.boolean c.holds) members)
  | j => j

inductive CheckReport where
  | parsed
  | compiled (entry : Code) (fragments : List Fragment)
  | checked (events : List CheckedEvent)

/-- Feeds events until one fails. -/
def Matcher.check (m : Matcher) : List Event → Except RunError (List CheckedEvent)
  | [] => .ok []
  | event :: events => do
    let (answer, m) := m.feed event
    let holds ← answer.result
    let others ← m.check events
    return ⟨event, holds⟩ :: others

def check (request : CheckRequest) : Except CheckError CheckReport := do
  let located (error : CompileError) : CheckError := .compile error request.rule
  if request.syntaxOnly then
    discard ((parseSource request.rule).mapError located)
    return .parsed
  let rule ← (compile .standard request.definitions request.rule).mapError located
  if request.codeOnly then return .compiled rule.entry rule.fragments
  match request.events with
  | none => throw (.input .noEvents)
  | some text =>
    let events ← (Event.read text).mapError .input
    return .checked (← (rule.matcher.check events).mapError .run)

/-- The events of a report as one JSON array. -/
def checkedJson (events : List CheckedEvent) : Json := .array (events.map CheckedEvent.toJson)

end EventRules
