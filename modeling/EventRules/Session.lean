import EventRules.Routine
import EventRules.Extension
import EventRules.Fragment

/-!
What running a rule works on: the environment with constants and fragment states, a trace of what
happened, and what one evaluation can see of the event.
-/

namespace EventRules
set_option autoImplicit false

inductive RunError where
  /-- indices of one sign that can select nothing -/
  | startAfterEnd (fragment : String) (start stop : Int64)
  | calculation (error : CalculationError)
  | missingFragment (name : String)
  | extension (error : ExtensionError)
deriving DecidableEq

def RunError.message : RunError → String
  | startAfterEnd fragment start stop =>
    let span := s!"take({start.toInt},{stop.toInt})"
    s!"Invalid argument in {fragment}: {span}: start index is after end index"
  | calculation error => error.message
  | missingFragment name => s!"Unknown fragment '{name}'"
  | extension error => error.message

/-- Constants, and the states of the fragments that have one. -/
structure Environment where
  constants : Keyed Value
  states : Keyed FragmentState
deriving DecidableEq, Inhabited

namespace Environment

def empty : Environment := ⟨.empty, .empty⟩

def define (env : Environment) (name : String) (v : Value) : Environment :=
  { env with constants := env.constants.put name v }

def resetState (env : Environment) (fragment : String) : Environment :=
  { env with states := env.states.remove fragment }

def clearStates (env : Environment) : Environment := { env with states := .empty }

end Environment

/-- What happened during an evaluation. -/
inductive TraceEntry where
  | called (fragment : String)
  /-- a chain reduced its events and judged the result -/
  | judged (chain : String) (count : Nat) (aggregate : Value) (verdict : Bool)
deriving DecidableEq

/-- The line of a log about an entry, if it has one. -/
def TraceEntry.line? : TraceEntry → Option String
  | called _ => none
  | judged chain count aggregate verdict =>
    let reduced := s!"{count} value(s), aggregate {aggregate.shown}"
    some s!"{chain}: {reduced} -> {(Value.boolean verdict).asText}"

structure Session where
  env : Environment
  /-- the latest entry first -/
  trace : List TraceEntry

/-- What one evaluation sees besides the session. -/
structure Frame where
  event : Event
  /-- when the stage before held, inside an arrow -/
  anchor : Option Int64
  fragments : List Fragment
  registry : Registry

abbrev Run (α : Type) : Type := Routine Session RunError α

namespace Run

open Routine

def note (entry : TraceEntry) : Run Unit := change fun s => { s with trace := entry :: s.trace }

def calculate {α : Type} (r : Except CalculationError α) : Run α :=
  ofExcept (r.mapError RunError.calculation)

def extension {α : Type} (r : Except ExtensionError α) : Run α :=
  ofExcept (r.mapError RunError.extension)

def resetStates (fragments : List String) : Run Unit :=
  change fun s => { s with env := fragments.foldl Environment.resetState s.env }

end Run

/-- The value of code for a value under test. -/
abbrev Evaluator : Type := Code → Value → Frame → Run Value

/-- Code as a condition. -/
def Evaluator.holds (eval : Evaluator) (code : Code) (subject : Value) (frame : Frame) : Run Bool :=
  Value.asBool <$> eval code subject frame

/-- A step of a fragment on its own state, which is out of the session meanwhile. -/
abbrev Step (State α : Type) : Type := Routine (State × Session) RunError α

namespace Step

variable {State α : Type}

def lift (m : Run α) : Step State α := fun s =>
  let (r, t) := m.run s.2
  (r, (s.1, t))

def own : Step State State := fun s => (.ok s.1, s)

def setOwn (state : State) : Step State Unit := fun s => (.ok (), (state, s.2))

end Step

end EventRules
