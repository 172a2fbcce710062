import EventRules.Compile

/-!
# The expression that a source selects

Compiling a source runs its statements, which define constants, until one yields the rule. Which
expression that is, and which constants it finds, does not depend on lowering it: `selected` tells them,
and compiling is lowering what was selected, with nothing lowered before.
-/

namespace EventRules
set_option autoImplicit false

open Routine

namespace Lowering

abbrev Selecting (α : Type) : Type := Routine (Keyed Value) LoweringError α

/-- The value of an expression among the constants defined so far. -/
def evaluated (registry : Registry) (e : Expr) : Selecting Value := do
  ofExcept (constant ⟨← state, registry, none⟩ e)

def declared (name : String) (v : Value) : Selecting Unit := change fun constants => constants.put name v

mutual

def selectStatement (registry : Registry) (isEnd : Bool) : Statement → Selecting (Option Expr)
  | .declare name value => do
    declared name.text (← evaluated registry value)
    return none
  | .assign name value => do
    if ((← state).get? name.text).isNone then fail (.undefined name)
    declared name.text (← evaluated registry value)
    return none
  | .branch condition taken otherwise => do
    if (← evaluated registry condition).asBool then selectStatements registry false taken
    else selectOtherwise registry otherwise
  | .yield expr => return some expr
  | .block statements => selectStatements registry false statements
  | .bare expr => do
    if !isEnd then fail (.bareBeforeEnd expr.position)
    return some expr

def selectStatements (registry : Registry) (isProgram : Bool) : List Statement → Selecting (Option Expr)
  | [] => return none
  | statement :: rest => do
    match ← selectStatement registry (isProgram && rest.isEmpty) statement with
    | some e => return some e
    | none => selectStatements registry isProgram rest

def selectOtherwise (registry : Registry) : Option Statement → Selecting (Option Expr)
  | none => return none
  | some statement => selectStatement registry false statement

end

/-- The code of what was selected, if anything was. -/
def lowered (registry : Registry) : Option Expr → Building (Option Code)
  | none => pure none
  | some e => some <$> Building.rule registry e

/-- Running statements is selecting among them and lowering the expression that comes out. -/
def Follows (registry : Registry) (m : Building (Option Code)) (s : Selecting (Option Expr)) : Prop :=
  ∀ constants output, m.run ⟨constants, output⟩ =
    match s.run constants with
    | (.ok choice, constants) => (lowered registry choice).run ⟨constants, output⟩
    | (.error e, constants) => (.error e, ⟨constants, output⟩)

namespace Follows

variable {registry : Registry} {α : Type}

/-- Work on the constants alone comes first. -/
theorem bind {work : Selecting α} {building : Building α} {f : α → Building (Option Code)}
    {k : α → Selecting (Option Expr)}
    (hwork : ∀ constants output, building.run ⟨constants, output⟩ =
      ((work.run constants).1, ⟨(work.run constants).2, output⟩))
    (hf : ∀ a, Follows registry (f a) (k a)) : Follows registry (building >>= f) (work >>= k) := by
  intro constants output
  rw [run_bind, hwork, run_bind]
  cases work.run constants with
  | mk r constants =>
    cases r with
    | error e => rfl
    | ok a => exact hf a constants output

theorem state_bind {f : Build → Building (Option Code)} {k : Keyed Value → Selecting (Option Expr)}
    (h : ∀ constants output, Follows registry (f ⟨constants, output⟩) (k constants)) :
    Follows registry (state >>= f) (state >>= k) :=
  fun constants output => h constants output constants output

theorem nothing : Follows registry (pure none) (pure none) := fun _ _ => rfl

theorem fail (e : LoweringError) : Follows registry (Routine.fail e) (Routine.fail e) := fun _ _ => rfl

theorem rule (e : Expr) : Follows registry (some <$> Building.rule registry e) (pure (some e)) :=
  fun _ _ => rfl

theorem evaluated (e : Expr) (constants : Keyed Value) (output : Output) :
    (Building.calculate registry e).run ⟨constants, output⟩ =
      (((Lowering.evaluated registry e).run constants).1,
        ⟨((Lowering.evaluated registry e).run constants).2, output⟩) := rfl

/-- A constant is defined, and no rule is yielded. -/
theorem defined (name : Token) (value : Expr) :
    Follows registry
      (Building.calculate registry value >>= fun v => Building.define name.text v >>= fun _ => pure none)
      (Lowering.evaluated registry value >>= fun v => declared name.text v >>= fun _ => pure none) :=
  bind (evaluated value) fun _ => bind (fun _ _ => rfl) fun _ => nothing

end Follows

mutual

theorem statement_follows (registry : Registry) (isEnd : Bool) : (s : Statement) →
    Follows registry (runStatement registry isEnd s) (selectStatement registry isEnd s)
  | .declare name value => by
    rw [runStatement, selectStatement]
    exact .defined name value
  | .assign name value => by
    rw [runStatement, selectStatement]
    refine .state_bind fun constants output => ?_
    cases (constants.get? name.text).isNone with
    | true => exact .fail _
    | false => exact .defined name value
  | .branch condition taken otherwise => by
    rw [runStatement, selectStatement]
    refine .bind (Follows.evaluated condition) fun v => ?_
    cases v.asBool with
    | true => exact statements_follow registry false taken
    | false => exact otherwise_follows registry otherwise
  | .yield expr => by
    rw [runStatement, selectStatement]
    exact .rule expr
  | .block statements => by
    rw [runStatement, selectStatement]
    exact statements_follow registry false statements
  | .bare expr => by
    rw [runStatement, selectStatement]
    cases isEnd with
    | false => exact .fail _
    | true => exact .rule expr

theorem statements_follow (registry : Registry) (isProgram : Bool) : (ss : List Statement) →
    Follows registry (runStatements registry isProgram ss) (selectStatements registry isProgram ss)
  | [] => by
    rw [runStatements, selectStatements]
    exact .nothing
  | statement :: rest => by
    rw [runStatements, selectStatements]
    intro constants output
    have hfirst := statement_follows registry (isProgram && rest.isEmpty) statement constants output
    have hrest := statements_follow registry isProgram rest
    rw [run_bind, hfirst, run_bind]
    cases (selectStatement registry (isProgram && rest.isEmpty) statement).run constants with
    | mk r constants =>
      cases r with
      | error e => rfl
      | ok choice =>
        cases choice with
        | none => exact hrest constants output
        | some e =>
          -- nothing runs behind the statement that yields the rule
          have hpure : ∀ constants, (pure (some e) : Selecting (Option Expr)).run constants =
              (.ok (some e), constants) := fun _ => rfl
          have hmap : (some <$> Building.rule registry e).run ⟨constants, output⟩ =
              (Building.rule registry e >>= fun c => pure (some c)).run ⟨constants, output⟩ := rfl
          simp only [hpure, lowered]
          rw [hmap, run_bind]
          cases (Building.rule registry e).run ⟨constants, output⟩ with
          | mk r b =>
            cases r with
            | ok c => rfl
            | error e => rfl

theorem otherwise_follows (registry : Registry) : (s : Option Statement) →
    Follows registry (runOtherwise registry s) (selectOtherwise registry s)
  | none => by
    rw [runOtherwise, selectOtherwise]
    exact .nothing
  | some statement => by
    rw [runOtherwise, selectOtherwise]
    exact statement_follows registry false statement

end

/-- The expression of a program. -/
def select (registry : Registry) (p : Program) : Selecting Expr := do
  match ← selectStatements registry true p with
  | some e => return e
  | none => fail .missingRule

theorem program_run (registry : Registry) (p : Program) (constants : Keyed Value) (output : Output) :
    (program registry p).run ⟨constants, output⟩ =
      match (select registry p).run constants with
      | (.ok e, constants) => (Building.rule registry e).run ⟨constants, output⟩
      | (.error e, constants) => (.error e, ⟨constants, output⟩) := by
  rw [program, select, run_bind, run_bind, statements_follow registry true p constants output]
  cases (selectStatements registry true p).run constants with
  | mk r constants =>
    cases r with
    | error e => rfl
    | ok choice =>
      cases choice with
      | none => rfl
      | some e =>
        have hmap : (lowered registry (some e)).run ⟨constants, output⟩ =
            (Building.rule registry e >>= fun c => pure (some c)).run ⟨constants, output⟩ := rfl
        have hpure : (pure e : Selecting Expr).run constants = (.ok e, constants) := rfl
        simp only [hpure]
        rw [hmap, run_bind]
        cases (Building.rule registry e).run ⟨constants, output⟩ with
        | mk r b =>
          cases r with
          | ok c => rfl
          | error e => rfl

end Lowering

/-- The expression that a source selects, and the constants that it finds. -/
def selected (registry : Registry) (constants : List (String × Value)) (source : String) :
    Except CompileError (Keyed Value × Expr) := do
  let p ← parseSource source
  let (e, constants) := (Lowering.select registry p).run (bindAll constants)
  return (constants, ← e.mapError .ofLowering)

/-- The rule of one expression. -/
def Rule.ofExpr (registry : Registry) (constants : Keyed Value) (source : String) (e : Expr) :
    Except LoweringError Rule :=
  let (entry, output) := (Lowering.lower ⟨constants, registry, none⟩ e).run .empty
  entry.map fun entry => ⟨source, entry, output.fragments, constants, registry, output.warnings⟩

/-- Compiling is selecting an expression and lowering it. -/
theorem compile_eq (registry : Registry) (constants : List (String × Value)) (source : String) :
    compile registry constants source =
      (selected registry constants source).bind fun choice =>
        (Rule.ofExpr registry choice.1 source choice.2).mapError .ofLowering := by
  rw [compile, selected]
  cases parseSource source with
  | error e => rfl
  | ok p =>
    have hrun := Lowering.program_run registry p (bindAll constants) .empty
    simp only [bind, Except.bind, pure, Except.pure, hrun, Rule.ofExpr]
    cases (Lowering.select registry p).run (bindAll constants) with
    | mk r constants =>
      cases r with
      | error e => rfl
      | ok e =>
        have hrule : (Lowering.Building.rule registry e).run ⟨constants, .empty⟩ =
            (((Lowering.lower ⟨constants, registry, none⟩ e).run .empty).1,
              ⟨constants, ((Lowering.lower ⟨constants, registry, none⟩ e).run .empty).2⟩) := rfl
        have hok : (Except.ok e : Except LoweringError Expr).mapError CompileError.ofLowering = .ok e :=
          rfl
        simp only [hrule, hok]
        cases ((Lowering.lower ⟨constants, registry, none⟩ e).run .empty).1 with
        | error e => rfl
        | ok c => rfl

/-- What has been tested of the outcome of something that succeeds. -/
theorem exists_of_any {ε α : Type} {r : Except ε α} {p : α → Bool} (h : r.toOption.any p = true) :
    ∃ a, r = .ok a ∧ p a = true := by
  cases r with
  | error e => cases h
  | ok a => exact ⟨a, rfl, h⟩

/-- The expression is written as a chain. -/
def Expr.isChain : Expr → Bool
  | .chain _ => true
  | .scalar .. | .ident _ | .binary .. | .unary .. | .compare .. | .range .. | .arrow _ | .call _
  | .lambda .. => false

theorem selected_chain {registry : Registry} {constants : List (String × Value)} {source : String}
    (h : (selected registry constants source).toOption.any (fun choice => choice.2.isChain) = true) :
    ∃ k calls, selected registry constants source = .ok (k, .chain calls) := by
  obtain ⟨⟨k, e⟩, hs, he⟩ := exists_of_any h
  cases e with
  | chain calls => exact ⟨k, calls, hs⟩
  | _ => cases he

/-- The sides of an expression that is an operation with the operator. -/
def Expr.sides? (op : BinaryOp) : Expr → Option (Expr × Expr)
  | .binary other left right => if other = op then some (left, right) else none
  | .scalar .. | .ident _ | .unary .. | .compare .. | .range .. | .arrow _ | .call _ | .chain _
  | .lambda .. => none

theorem selected_sides (registry : Registry) (constants : List (String × Value)) (source : String)
    (op : BinaryOp) (p : Expr → Expr → Bool)
    (h : (selected registry constants source).toOption.any (fun choice =>
      (choice.2.sides? op).any fun sides => p sides.1 sides.2) = true) :
    ∃ k left right, selected registry constants source = .ok (k, .binary op left right) ∧
      p left right = true := by
  obtain ⟨⟨k, e⟩, hs, he⟩ := exists_of_any h
  cases e with
  | binary other left right =>
    by_cases hop : other = op
    · subst hop
      simp only [Expr.sides?, if_true, Option.any_some] at he
      exact ⟨k, left, right, hs, he⟩
    · simp [Expr.sides?, hop] at he
  | _ => cases he

theorem selected_of_compiled {registry : Registry} {constants : List (String × Value)}
    {source : String} {rule : Rule} (h : compile registry constants source = .ok rule) :
    ∃ k e, selected registry constants source = .ok (k, e) ∧
      Rule.ofExpr registry k source e = .ok rule := by
  rw [compile_eq] at h
  cases hs : selected registry constants source with
  | error err =>
    rw [hs] at h
    cases h
  | ok choice =>
    obtain ⟨k, e⟩ := choice
    rw [hs] at h
    refine ⟨k, e, rfl, ?_⟩
    change (Rule.ofExpr registry k source e).mapError CompileError.ofLowering = .ok rule at h
    cases hr : Rule.ofExpr registry k source e with
    | error err =>
      rw [hr] at h
      cases h
    | ok rule' =>
      rw [hr] at h
      cases h
      rfl

theorem Rule.of_selected {registry : Registry} {constants : List (String × Value)} {source : String}
    {rule : Rule} {k : Keyed Value} {e : Expr} (h : compile registry constants source = .ok rule)
    (hs : selected registry constants source = .ok (k, e)) :
    Rule.ofExpr registry k source e = .ok rule := by
  obtain ⟨k', e', hs', hr⟩ := selected_of_compiled h
  rw [hs] at hs'
  obtain ⟨rfl, rfl⟩ := Prod.mk.inj (Except.ok.inj hs')
  exact hr

end EventRules
