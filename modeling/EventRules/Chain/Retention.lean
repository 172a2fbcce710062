import EventRules.Chain.Plan

/-!
Which events a chain retains, and which of them it hands on.
-/

namespace EventRules.Chain
set_option autoImplicit false

open Number

/-- The events retained and the events handed on, if any, after an event that was let in or not. -/
def retain (sampler : Option Sampler) (retained : List Event) (event : Event) (admitted : Bool) :
    List Event × Option (List Event) :=
  let added := retained ++ [event]
  match sampler with
  | none =>
    let kept := if admitted then added else retained
    (kept, some kept)
  | some (.limit (.count n)) =>
    let kept := if admitted then added.drop (added.length - n) else retained
    (kept, some kept)
  | some (.limit (.duration ms)) =>
    let oldest := subClamped event.timestamp ms
    let kept := if admitted then added.filter fun e => oldest ≤ e.timestamp else retained
    (kept, some kept)
  | some (.window (.count n)) =>
    if !admitted then (retained, none)
    else if added.length < n then (added, none)
    else (added.drop 1, some (added.take n))
  | some (.window (.duration ms)) =>
    if !admitted then (retained, none)
    else
      let head := ((added.head?).getD event).timestamp
      if subClamped event.timestamp head < ms then (added, none)
      else
        let last := addClamped head ms
        (added.drop 1, some (added.filter fun e => e.timestamp ≤ last))

/-- An index from the front; a negative one counts from the back of `length` elements. -/
def indexFrom (length : Nat) (i : Int64) : Int := if i < 0 then length + i.toInt else i.toInt

/-- The events from index `start` up to `stop`, if there are as many. -/
def slice? (events : List Event) (start : Int64) (stop : Option Int64) : Option (List Event) :=
  let s := indexFrom events.length start
  let e := (stop.map (indexFrom events.length)).getD events.length
  if s < 0 ∨ (events.length : Int) < e ∨ e < s then none
  else some ((events.drop s.toNat).take (e - s).toNat)

/-- Indices that count from the same end and of which the first lies behind the second. -/
def isEmptyTake (start : Int64) : (stop : Option Int64) → Bool
  | none => false
  | some stop => (0 ≤ start) == (0 ≤ stop) && stop < start

end EventRules.Chain
