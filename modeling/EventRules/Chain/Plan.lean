import EventRules.Code

/-!
Chains: pipelines that let events in, retain some of them, reduce those to one value and judge it.
-/

namespace EventRules.Chain
set_option autoImplicit false

/-- How far a retention reaches: a number of events or a time in milliseconds. -/
inductive Extent where
  | count (n : Nat)
  | duration (ms : Int64)
deriving DecidableEq

def Extent.shown : Extent → String
  | count n => toString n
  | duration ms => s!"{ms.toInt}ms"

/-- A limit keeps the latest events; a window hands on full groups and then moves on by one event. -/
inductive Sampler where
  | limit (extent : Extent)
  | window (extent : Extent)
deriving DecidableEq

/-- What the events handed on are reduced to. -/
inductive Aggregation where
  | sum
  | avg
  | min
  | max
  | stddev
  | count
  | hitRate (condition : Code)
  | extension (name : String)
deriving DecidableEq

structure Plan where
  filters : List Test
  sampler : Option Sampler
  /-- first index and end of the events to take; negative ones count from the back -/
  take : Option (Int64 × Option Int64)
  aggregation : Aggregation
  verdict : Test
  /-- a chain that holds forgets its events -/
  clears : Bool
deriving DecidableEq

/-- The events of a chain between two calls. -/
structure State where
  retained : List Event
  /-- what was handed on in the latest call -/
  emitted : List Event
deriving DecidableEq

def State.initial : State := ⟨[], []⟩

namespace Plan

def shownFilter : Test → String
  | .condition code => s!"filter({code.shown})"
  | .extension name => s!"{name}()"

def shownSampler : Option Sampler → String
  | none => ".collect()"
  | some (.limit extent) => s!".limit({extent.shown})"
  | some (.window extent) => s!".window({extent.shown})"

def shownTake : Option (Int64 × Option Int64) → String
  | none => ""
  | some (start, none) => s!".take({start.toInt})"
  | some (start, some stop) => s!".take({start.toInt},{stop.toInt})"

def shownAggregation : Aggregation → String
  | .sum => ".sum()"
  | .avg => ".avg()"
  | .min => ".min()"
  | .max => ".max()"
  | .stddev => ".stddev()"
  | .count => ".count()"
  | .hitRate condition => s!".hitRate({condition.shown})"
  | .extension name => s!".{name}()"

def shownVerdict : Test → String
  | .condition code => s!".meet({code.shown})"
  | .extension name => s!".{name}()"

def shown (p : Plan) : String :=
  let filters := if p.filters.isEmpty then ["filter()"] else p.filters.map shownFilter
  String.intercalate "." filters ++ shownSampler p.sampler ++ shownTake p.take
    ++ shownAggregation p.aggregation ++ shownVerdict p.verdict
    ++ (if p.clears then ".clear()" else "")

end Plan

end EventRules.Chain
