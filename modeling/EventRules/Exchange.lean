import EventRules.Json.Read
import EventRules.Text.Blank
import EventRules.Text.Lines
import EventRules.Text.Numeral
import EventRules.Value.Basic

/-!
Values, events and definitions as texts. Events come as one JSON array, as one JSON value or as one JSON
value a line; a value that is no object is a reading without id and time.
-/

namespace EventRules
set_option autoImplicit false

open Number

/-- Why a JSON value is no event. -/
inductive EventFault where
  | notScalar (found : String)
  | noValue (index : Nat)
  | fractionalTimestamp (index : Nat)
  | notTimestamp (index : Nat) (found : String)
deriving DecidableEq

def EventFault.message : EventFault → String
  | notScalar found => s!"expected a scalar value, got {found}"
  | noValue index => s!"event #{index} has no 'value'"
  | fractionalTimestamp index => s!"event #{index} has a non-integer timestamp"
  | notTimestamp index found => s!"event #{index} has timestamp {found}, expected milliseconds"

inductive InputError where
  | noEvents
  | invalidJson
  | invalidEvent (fault : EventFault)
  | invalidDefinition (text : String)
deriving DecidableEq

def InputError.message : InputError → String
  | noEvents => "No events provided. Use --events or pipe JSON to stdin."
  | invalidJson => "Invalid JSON"
  | invalidEvent fault => s!"Invalid event: {fault.message}"
  | invalidDefinition text => s!"Invalid definition '{text}': expected NAME=VALUE"

/-- An integer that does not fit is read as a float. -/
def Value.ofJson : Json → Except EventFault Value
  | .null => .ok .null
  | .boolean b => .ok (.boolean b)
  | .integer n =>
    match fit64? n with
    | some n => .ok (.integer n)
    | none => .ok (.float (Float.ofInt n))
  | .float x => .ok (.float x)
  | .text s => .ok (.text s)
  | j => .error (.notScalar j.compact)

/-- JSON has no float outside the numbers. -/
def Value.toJson : Value → Json
  | .null => .null
  | .boolean b => .boolean b
  | .integer n => .integer n.toInt
  | .float x => if x.isFinite then .float x else .null
  | .text s => .text s

namespace Event

/-- The time of the event at a place of the input. A missing one is the place. -/
def timestampOfJson (index : Nat) : Option Json → Except EventFault Int64
  | none | some .null => .ok (Int64.ofNat index)
  | some (.integer n) =>
    match fit64? n with
    | some n => .ok n
    | none => .error (.fractionalTimestamp index)
  | some (.float _) => .error (.fractionalTimestamp index)
  | some j => .error (.notTimestamp index j.compact)

/-- The id of the event at a place of the input. A missing one is the place. -/
def idOfJson (index : Nat) : Option Json → String
  | none | some .null => toString index
  | some (.text s) => s
  | some j => j.compact

/-- The event at a place of the input. -/
def ofJson (index : Nat) (j : Json) : Except EventFault Event :=
  match j with
  | .object members => do
    match members.lookup "value" with
    | none => throw (.noValue index)
    | some reading =>
      let timestamp ← timestampOfJson index (members.lookup "timestamp")
      return ⟨idOfJson index (members.lookup "id"), ← Value.ofJson reading, timestamp⟩
  | reading => do return ⟨toString index, ← Value.ofJson reading, Int64.ofNat index⟩

def toJson (e : Event) : Json :=
  .ofMembers [("id", .text e.id), ("value", e.value.toJson), ("timestamp", .integer e.timestamp.toInt)]

/-- The events at the places of the input from `index` on. -/
def ofJsons (index : Nat) : List Json → Except InputError (List Event)
  | [] => .ok []
  | j :: js => do
    let event ← (ofJson index j).mapError .invalidEvent
    let events ← ofJsons (index + 1) js
    return event :: events

/-- The events of lines that are no blank ones, from place `index` on. -/
def ofLines (index : Nat) : List (List Char) → Except InputError (List Event)
  | [] => .ok []
  | line :: lines => do
    match Json.read? line with
    | none => throw .invalidJson
    | some j =>
      let event ← (ofJson index j).mapError .invalidEvent
      let events ← ofLines (index + 1) lines
      return event :: events

/-- The events that a text spells. -/
def read (text : String) : Except InputError (List Event) :=
  let trimmed := Text.trim text.toList
  if trimmed.isEmpty then .error .noEvents
  else
    match Json.read? trimmed with
    | some (.array items) => ofJsons 0 items
    | some j => ofJsons 0 [j]
    | none => ofLines 0 (((Text.lines trimmed).map Text.trim).filter fun line => !line.isEmpty)

end Event

/-- A name that a definition may bind. -/
def isDefinable (name : List Char) : Bool := !name.isEmpty && name.all Text.continuesWord

/-- The name and the value of a definition `NAME=VALUE`. What is no JSON scalar is text as it stands. -/
def readDefinition (text : String) : Except InputError (String × Value) :=
  let cs := text.toList
  let name := Text.trim (cs.takeWhile (· ≠ '='))
  match cs.dropWhile (· ≠ '=') with
  | [] => .error (.invalidDefinition text)
  | _ :: raw =>
    if !isDefinable name then .error (.invalidDefinition text)
    else
      let value? := (Json.read? (Text.trim raw)).bind fun j => (Value.ofJson j).toOption
      .ok (String.ofList name, value?.getD (.text (String.ofList raw)))

end EventRules
