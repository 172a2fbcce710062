import EventRules.Lowering.Expression
import EventRules.Rule.Statement

/-!
Lowering programs. The statements before the rule are run when it is compiled; they define the
constants that it uses. The rule is the first expression that is yielded, or else the last statement.
-/

namespace EventRules.Lowering
set_option autoImplicit false

open Routine

/-- The constants defined and the output made so far. -/
structure Build where
  constants : Keyed Value
  output : Output
deriving DecidableEq, Inhabited

abbrev Building (α : Type) : Type := Routine Build LoweringError α

namespace Building

def define (name : String) (v : Value) : Building Unit :=
  change fun b => { b with constants := b.constants.put name v }

def calculate (registry : Registry) (e : Expr) : Building Value := do
  ofExcept (constant ⟨(← state).constants, registry, none⟩ e)

def rule (registry : Registry) (e : Expr) : Building Code := fun b =>
  let (r, output) := (lower ⟨b.constants, registry, none⟩ e).run b.output
  (r, { b with output })

end Building

open Building

mutual

/-- Runs one statement; `isEnd` holds of the last one of a program. The answer is the code of the rule,
if the statement yields it. -/
def runStatement (registry : Registry) (isEnd : Bool) : Statement → Building (Option Code)
  | .declare name value => do
    define name.text (← calculate registry value)
    return none
  | .assign name value => do
    if ((← state).constants.get? name.text).isNone then fail (.undefined name)
    define name.text (← calculate registry value)
    return none
  | .branch condition taken otherwise => do
    if (← calculate registry condition).asBool then runStatements registry false taken
    else runOtherwise registry otherwise
  | .yield expr => some <$> rule registry expr
  | .block statements => runStatements registry false statements
  | .bare expr => do
    if !isEnd then fail (.bareBeforeEnd expr.position)
    some <$> rule registry expr

/-- Runs statements up to the one that yields the rule; `isProgram` holds of those of a whole program. -/
def runStatements (registry : Registry) (isProgram : Bool) : List Statement → Building (Option Code)
  | [] => return none
  | statement :: rest => do
    match ← runStatement registry (isProgram && rest.isEmpty) statement with
    | some code => return some code
    | none => runStatements registry isProgram rest

def runOtherwise (registry : Registry) : Option Statement → Building (Option Code)
  | none => return none
  | some statement => runStatement registry false statement

end

/-- The code of the rule of a program. -/
def program (registry : Registry) (p : Program) : Building Code := do
  match ← runStatements registry true p with
  | some code => return code
  | none => fail .missingRule

end EventRules.Lowering
