import EventRules.Rule.Expr

/-!
Programs: statements that are run when a rule is compiled, and the rule itself.
-/

namespace EventRules
set_option autoImplicit false

inductive Statement where
  | declare (name : Token) (value : Expr)
  | assign (name : Token) (value : Expr)
  | branch (condition : Expr) (taken : List Statement) (otherwise : Option Statement)
  | yield (rule : Expr)
  | block (statements : List Statement)
  | bare (rule : Expr)

abbrev Program := List Statement

/-- The expression of a program that is nothing else. -/
def Program.single? : Program → Option Expr
  | [.bare e] => some e
  | _ => none

end EventRules
