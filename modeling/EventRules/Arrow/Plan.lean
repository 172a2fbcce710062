import EventRules.Code

/-!
Arrows: stages that have to hold one after the other, each on an event of its own.
-/

namespace EventRules.Arrow
set_option autoImplicit false

structure Plan where
  stages : List Code
  /-- the fragments inside the stages, which start again with the arrow -/
  owned : List String
deriving DecidableEq

/-- How far an arrow has come. -/
structure State where
  /-- the stage that the next event is tested against -/
  pointer : Nat
  /-- the time of the event that the stage before it held on -/
  lastAdvance : Option Int64
deriving DecidableEq

def State.initial : State := ⟨0, none⟩

def Plan.shown (p : Plan) : String :=
  let stages := String.intercalate ", " (p.stages.map Code.shown)
  s!"sequence({stages})"

end EventRules.Arrow
