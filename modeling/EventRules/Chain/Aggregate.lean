import EventRules.Chain.Plan
import EventRules.Session

/-!
Reducing the events of a chain to one value. Readings that are no numbers do not count, and no numbers
at all reduce to zero.
-/

namespace EventRules.Chain
set_option autoImplicit false

open Number

/-- The readings that are numbers. -/
def numbers (batch : List Event) : List Value :=
  (batch.map Event.value).filter fun v => v.toNumber?.isSome

def addIntegers? (total : Int64) : List Value → Option Int64
  | [] => some total
  | v :: vs =>
    match v with
    | .integer n => (fit64? (total.toInt + n.toInt)).bind fun t => addIntegers? t vs
    | _ => none

def addDecimals? (total : Decimal) : List Value → Option Decimal
  | [] => some total
  | v :: vs => v.toDecimal?.bind fun d => (total.add? d).bind fun t => addDecimals? t vs

def addFloats (xs : List Float) : Float := xs.foldl (· + ·) 0

/-- Integers sum to an integer if it fits; all else is summed in decimals. -/
def sum (vs : List Value) : Value :=
  match addIntegers? 0 vs with
  | some n => .integer n
  | none =>
    match addDecimals? .zero vs with
    | some d => .float d.toFloat
    | none => .float (addFloats (vs.filterMap Value.toNumber?))

def average (vs : List Value) : Value :=
  if vs.isEmpty then .integer 0
  else
    let mean? := do
      let total ← addDecimals? .zero vs
      let count ← Decimal.make? vs.length 0
      total.div? count
    match mean? with
    | some d => .float d.toFloat
    | none => .float (addFloats (vs.filterMap Value.toNumber?) / Float.ofNat vs.length)

/-- The first value that no other one precedes in the given direction. -/
def extreme (direction : Ordering) : List Value → Value
  | [] => .integer 0
  | v :: vs =>
    vs.foldl (fun best v => if Value.looseCompare? v best = some direction then v else best) v

/-- Population standard deviation. -/
def deviation (vs : List Value) : Value :=
  if vs.length < 2 then .float 0
  else
    let xs := vs.filterMap Value.toNumber?
    let n := Float.ofNat xs.length
    let mean := addFloats xs / n
    .float (addFloats (xs.map fun x => (x - mean) * (x - mean)) / n).sqrt

def countHits (eval : Evaluator) (condition : Code) (frame : Frame) : List Event → Run Nat
  | [] => pure 0
  | e :: es => do
    let hit ← eval.holds condition e.value frame
    let others ← countHits eval condition frame es
    return if hit then others + 1 else others

def aggregate (eval : Evaluator) (how : Aggregation) (batch : List Event) (frame : Frame) :
    Run Value :=
  match how with
  | .sum => pure (sum (numbers batch))
  | .avg => pure (average (numbers batch))
  | .min => pure (extreme .lt (numbers batch))
  | .max => pure (extreme .gt (numbers batch))
  | .stddev => pure (deviation (numbers batch))
  | .count => pure (.integer (clamp64 batch.length))
  | .hitRate condition =>
    if batch.isEmpty then pure (.integer 0)
    else do
      let hits ← countHits eval condition frame batch
      return .float (Float.ofNat hits / Float.ofNat batch.length)
  | .extension name => do
    let f ← Run.extension (frame.registry.calculator name)
    return .float (f batch)

end EventRules.Chain
