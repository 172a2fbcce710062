import EventRules.Keyed
import EventRules.Value.Basic

/-!
Extensions: operators that a host adds to the rule language under names of its own. One takes the
place of a filter, of an aggregation or of the final test of a chain.
-/

namespace EventRules
set_option autoImplicit false

inductive ExtensionKind where
  | filter
  | calculator
  | meet
deriving DecidableEq, Repr

def ExtensionKind.shown : ExtensionKind → String
  | filter => "filter"
  | calculator => "calculator"
  | meet => "meet"

inductive Extension where
  | filter (f : Event → Bool)
  | calculator (f : List Event → Float)
  | meet (f : Float → Bool)

def Extension.kind : Extension → ExtensionKind
  | filter _ => .filter
  | calculator _ => .calculator
  | meet _ => .meet

/-- No extension of the kind has the name. -/
structure ExtensionError where
  kind : ExtensionKind
  name : String
deriving DecidableEq, Repr

def ExtensionError.message (e : ExtensionError) : String :=
  s!"No {e.kind.shown} UDF named '{e.name}' is registered"

/-- The extensions that rules may use. -/
abbrev Registry : Type := Keyed Extension

namespace Registry

/-- A whole float that is a multiple of two. -/
def isEven (x : Float) : Bool :=
  (Number.Binary.ofFloat? x).any fun b => b.isWhole && b.truncate % 2 == 0

def standard : Registry :=
  (Keyed.empty
    |>.put "numericFilter" (.filter fun e => e.value.toNumber?.isSome)
    |>.put "positiveFilter" (.filter fun e => e.value.toNumber?.any fun x => 0 < x)
    |>.put "evenMeet" (.meet isEven)
    |>.put "positiveMeet" (.meet fun x => 0 < x))

def kind? (r : Registry) (name : String) : Option ExtensionKind := (r.get? name).map Extension.kind

def isFilter (r : Registry) (name : String) : Bool := r.kind? name == some .filter

def filter (r : Registry) (name : String) : Except ExtensionError (Event → Bool) :=
  match r.get? name with
  | some (.filter f) => .ok f
  | _ => .error ⟨.filter, name⟩

def calculator (r : Registry) (name : String) : Except ExtensionError (List Event → Float) :=
  match r.get? name with
  | some (.calculator f) => .ok f
  | _ => .error ⟨.calculator, name⟩

def meet (r : Registry) (name : String) : Except ExtensionError (Float → Bool) :=
  match r.get? name with
  | some (.meet f) => .ok f
  | _ => .error ⟨.meet, name⟩

end Registry

end EventRules
