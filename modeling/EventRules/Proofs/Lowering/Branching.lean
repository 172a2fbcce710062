import EventRules.Lowering.Program

/-!
# Branches that are taken

The condition of a branch is calculated when a rule is compiled, and nothing but its truth is left of it.
So the statements of the branch that is taken can be written in place of the whole, if something stands
behind them: the last statement of a program may be a bare expression, and one in a branch may not. Doing
that again and again leaves the statements that are reached: definitions, and behind them at most one
statement that ends the run.
-/

namespace EventRules.Lowering
set_option autoImplicit false

open Routine Building

variable {registry : Registry}

/-! ### Statements one after the other -/

/-- The second work is done if the first one has yielded no rule. -/
def unlessYielded (m n : Building (Option Code)) : Building (Option Code) := do
  match ← m with
  | some code => return some code
  | none => n

theorem unlessYielded_none {m n : Building (Option Code)} {b b' : Build}
    (h : m.run b = (.ok none, b')) : (unlessYielded m n).run b = n.run b' :=
  run_bind_ok h _

theorem unlessYielded_ended {m n : Building (Option Code)} {b : Build}
    (h : ∀ b', m.run b ≠ (.ok none, b')) : (unlessYielded m n).run b = m.run b := by
  rw [unlessYielded, run_bind]
  cases hm : m.run b with
  | mk r b' =>
    cases r with
    | error e => rfl
    | ok choice =>
      cases choice with
      | none => exact absurd hm (h b')
      | some code => rfl

theorem unlessYielded_pure (m : Building (Option Code)) : unlessYielded m (pure none) = m := by
  funext b
  change (unlessYielded m (pure none)).run b = m.run b
  rw [unlessYielded, run_bind]
  cases m.run b with
  | mk r b' =>
    cases r with
    | error e => rfl
    | ok choice => cases choice <;> rfl

theorem unlessYielded_assoc (l m n : Building (Option Code)) :
    unlessYielded (unlessYielded l m) n = unlessYielded l (unlessYielded m n) := by
  funext b
  change (unlessYielded (unlessYielded l m) n).run b = (unlessYielded l (unlessYielded m n)).run b
  simp only [unlessYielded, run_bind]
  cases l.run b with
  | mk r b' =>
    cases r with
    | error e => rfl
    | ok choice => cases choice <;> rfl

theorem runStatements_cons (isProgram : Bool) (s : Statement) (rest : List Statement) :
    runStatements registry isProgram (s :: rest) =
      unlessYielded (runStatement registry (isProgram && rest.isEmpty) s)
        (runStatements registry isProgram rest) := by
  rw [runStatements]
  rfl

theorem runStatements_single (isProgram : Bool) (s : Statement) :
    runStatements registry isProgram [s] = runStatement registry isProgram s := by
  rw [runStatements_cons, runStatements, unlessYielded_pure, List.isEmpty_nil, Bool.and_true]

/-- Statements that others stand behind are not at the end of a program. -/
theorem runStatements_append (isProgram : Bool) (xs ys : List Statement) :
    runStatements registry isProgram (xs ++ ys) =
      unlessYielded (runStatements registry (isProgram && ys.isEmpty) xs)
        (runStatements registry isProgram ys) := by
  induction xs with
  | nil =>
    rw [List.nil_append, runStatements]
    rfl
  | cons x xs ih =>
    have hend : (isProgram && (xs ++ ys).isEmpty) = (isProgram && ys.isEmpty && xs.isEmpty) := by
      cases xs <;> cases ys <;> simp
    rw [List.cons_append, runStatements_cons, runStatements_cons, ih, hend, unlessYielded_assoc]

/-! ### The branch that is taken -/

/-- The statements of a block, and a single statement otherwise. -/
def bodyOf : Statement → List Statement
  | .block statements => statements
  | s => [s]

/-- The statements that a branch stands for if its condition has the value. -/
def chosen (v : Value) (taken : List Statement) (otherwise : Option Statement) : List Statement :=
  if v.asBool then taken else otherwise.toList.flatMap bodyOf

theorem run_body (s : Statement) :
    runStatements registry false (bodyOf s) = runStatement registry false s := by
  cases s with
  | block statements =>
    rw [runStatement]
    rfl
  | _ => exact runStatements_single false _

theorem runOtherwise_eq (otherwise : Option Statement) :
    runStatements registry false (otherwise.toList.flatMap bodyOf) = runOtherwise registry otherwise := by
  cases otherwise with
  | none => rw [runOtherwise, Option.toList_none, List.flatMap_nil, runStatements]
  | some s =>
    rw [runOtherwise, Option.toList_some, List.flatMap_singleton, run_body]

/-- A branch whose condition has a value does what the statements do that it stands for. -/
theorem run_branch {condition : Expr} {v : Value} {b : Build}
    (h : constant ⟨b.constants, registry, none⟩ condition = .ok v) (isEnd : Bool)
    (taken : List Statement) (otherwise : Option Statement) :
    (runStatement registry isEnd (.branch condition taken otherwise)).run b =
      (runStatements registry false (chosen v taken otherwise)).run b := by
  have hv : (calculate registry condition).run b = (.ok v, b) := by
    change (constant ⟨b.constants, registry, none⟩ condition, b) = _
    rw [h]
  rw [runStatement, run_bind_ok hv, chosen]
  cases v.asBool with
  | true => rfl
  | false => rw [← runOtherwise_eq]; rfl

/-- Between others, statements can be replaced by those that do the same there. -/
theorem run_between {pre xs ys rest : List Statement} (hrest : rest ≠ []) {b b' : Build}
    (hreached : (runStatements registry false pre).run b = (.ok none, b'))
    (h : (runStatements registry false xs).run b' = (runStatements registry false ys).run b')
    (isProgram : Bool) :
    (runStatements registry isProgram (pre ++ xs ++ rest)).run b =
      (runStatements registry isProgram (pre ++ ys ++ rest)).run b := by
  have hinner : (isProgram && rest.isEmpty) = false := by simp [hrest]
  have hrun : ∀ ss, (runStatements registry isProgram (pre ++ ss ++ rest)).run b =
      (unlessYielded (runStatements registry false ss) (runStatements registry isProgram rest)).run b' := by
    intro ss
    rw [runStatements_append, hinner, runStatements_append, Bool.false_and, unlessYielded_assoc,
      unlessYielded_none hreached]
  rw [hrun, hrun, unlessYielded, unlessYielded, run_bind, run_bind, h]

/-! ### The statements that are reached -/

/-- What a run comes by. -/
structure Passage where
  statements : List Statement
  /-- the constants that the run goes on with, unless it has ended -/
  next : Option (Keyed Value)

/-- The run goes on, if it has not ended. -/
def Passage.andThen (p : Passage) (rest : Keyed Value → Passage) : Passage :=
  match p.next with
  | none => p
  | some constants => ⟨p.statements ++ (rest constants).statements, (rest constants).next⟩

/-- The definition that is reached, and where it leads if its value can be calculated. -/
def definition (registry : Registry) (constants : Keyed Value) (name : Token) (value : Expr)
    (s : Statement) : Passage :=
  ⟨[s], (constant ⟨constants, registry, none⟩ value).toOption.map (constants.put name.text)⟩

mutual

/-- The statements that one statement comes to. A condition that cannot be calculated is reached alone, and
an expression that is out of place ends the run in a block of its own. -/
def passStatement (registry : Registry) (isEnd : Bool) (constants : Keyed Value) : Statement → Passage
  | .declare name value => definition registry constants name value (.declare name value)
  | .assign name value =>
    if (constants.get? name.text).isNone then ⟨[.assign name value], none⟩
    else definition registry constants name value (.assign name value)
  | .branch condition taken otherwise =>
    match constant ⟨constants, registry, none⟩ condition with
    | .ok v =>
      if v.asBool then passStatements registry false constants taken
      else passOtherwise registry constants otherwise
    | .error _ => ⟨[.branch condition [] none], none⟩
  | .yield expr => ⟨[.yield expr], none⟩
  | .block statements => passStatements registry false constants statements
  | .bare expr => ⟨[if isEnd then .bare expr else .block [.bare expr]], none⟩

def passStatements (registry : Registry) (isProgram : Bool) (constants : Keyed Value) :
    List Statement → Passage
  | [] => ⟨[], some constants⟩
  | statement :: rest =>
    (passStatement registry (isProgram && rest.isEmpty) constants statement).andThen fun constants =>
      passStatements registry isProgram constants rest

def passOtherwise (registry : Registry) (constants : Keyed Value) : Option Statement → Passage
  | none => ⟨[], some constants⟩
  | some statement => passStatement registry false constants statement

end

/-- The statements of a program that are reached. -/
def reached (registry : Registry) (constants : Keyed Value) (p : Program) : Program :=
  (passStatements registry true constants p).statements

/-- Running the statements that a passage comes by is doing the work, from the constants on. -/
structure Passes (registry : Registry) (isEnd : Bool) (constants : Keyed Value) (p : Passage)
    (work : Building (Option Code)) : Prop where
  run : ∀ isProgram, (isEnd = true → isProgram = true) → ∀ output,
    (runStatements registry isProgram p.statements).run ⟨constants, output⟩ =
      work.run ⟨constants, output⟩
  next : ∀ k, p.next = some k → ∀ output, work.run ⟨constants, output⟩ = (.ok none, ⟨k, output⟩)
  ended : p.next = none → ∀ output b, work.run ⟨constants, output⟩ ≠ (.ok none, b)

namespace Passes

variable {isEnd : Bool} {constants : Keyed Value} {p : Passage} {work : Building (Option Code)}

theorem nothing : Passes registry isEnd constants ⟨[], some constants⟩ (pure none) := by
  refine ⟨?_, ?_, nofun⟩
  · intro isProgram _ output
    rw [runStatements]
  · rintro _ ⟨⟩ output
    rfl

theorem andThen {rest : Keyed Value → Passage} {others : Building (Option Code)} {isProgram : Bool}
    (h : Passes registry (isProgram && isEnd) constants p work)
    (hend : ∀ k, isEnd = true → (rest k).statements = [])
    (hrest : ∀ k, Passes registry isProgram k (rest k) others) :
    Passes registry isProgram constants (p.andThen rest) (unlessYielded work others) := by
  cases hnext : p.next with
  | none =>
    have hp : p.andThen rest = p := by rw [Passage.andThen, hnext]
    rw [hp]
    have hwork : ∀ output, (unlessYielded work others).run ⟨constants, output⟩ =
        work.run ⟨constants, output⟩ := fun output => unlessYielded_ended (h.ended hnext output)
    refine ⟨?_, ?_, ?_⟩
    · intro flag hflag output
      rw [hwork]
      exact h.run flag (fun he => hflag (Bool.and_eq_true_iff.mp he).1) output
    · intro k hk
      rw [hnext] at hk
      cases hk
    · intro _ output b
      rw [hwork]
      exact h.ended hnext output b
  | some k =>
    have hp : p.andThen rest = ⟨p.statements ++ (rest k).statements, (rest k).next⟩ := by
      rw [Passage.andThen, hnext]
    rw [hp]
    have hwork : ∀ output, (unlessYielded work others).run ⟨constants, output⟩ =
        others.run ⟨k, output⟩ := fun output => unlessYielded_none (h.next k hnext output)
    obtain ⟨hrun, hon, hended⟩ := hrest k
    refine ⟨?_, ?_, ?_⟩
    · intro flag hflag output
      have hfirst : (runStatements registry (flag && (rest k).statements.isEmpty) p.statements).run
          ⟨constants, output⟩ = (.ok none, ⟨k, output⟩) := by
        rw [h.run _ ?_ output]
        · exact h.next k hnext output
        · intro he
          obtain ⟨he, hlast⟩ := Bool.and_eq_true_iff.mp he
          rw [hflag he, hend k hlast]
          rfl
      rw [runStatements_append, unlessYielded_none hfirst, hwork]
      exact hrun flag hflag output
    · intro k' hk' output
      rw [hwork]
      exact hon k' hk' output
    · intro hk' output b
      rw [hwork]
      exact hended hk' output b

/-- What stands inside a statement is never at the end of a program. -/
theorem inner {work' : Building (Option Code)} (h : Passes registry false constants p work)
    (hwork : ∀ output, work'.run ⟨constants, output⟩ = work.run ⟨constants, output⟩) :
    Passes registry isEnd constants p work' := by
  obtain ⟨hrun, hnext, hended⟩ := h
  refine ⟨?_, ?_, ?_⟩
  · intro isProgram _ output
    rw [hrun isProgram nofun, hwork]
  · intro k hk output
    rw [hwork, hnext k hk]
  · intro hk output b
    rw [hwork]
    exact hended hk output b

/-- A statement that is reached itself. -/
theorem single {s : Statement} {next : Option (Keyed Value)}
    (hs : ∀ isProgram, (isEnd = true → isProgram = true) → ∀ output,
      (runStatement registry isProgram s).run ⟨constants, output⟩ = work.run ⟨constants, output⟩)
    (hnext : ∀ k, next = some k → ∀ output, work.run ⟨constants, output⟩ = (.ok none, ⟨k, output⟩))
    (hended : next = none → ∀ output b, work.run ⟨constants, output⟩ ≠ (.ok none, b)) :
    Passes registry isEnd constants ⟨[s], next⟩ work := by
  refine ⟨?_, hnext, hended⟩
  intro isProgram h output
  rw [runStatements_single]
  exact hs isProgram h output

/-- A statement that ends the run. -/
theorem last {s : Statement}
    (hs : ∀ isProgram, (isEnd = true → isProgram = true) → ∀ output,
      (runStatement registry isProgram s).run ⟨constants, output⟩ = work.run ⟨constants, output⟩)
    (hended : ∀ output b, work.run ⟨constants, output⟩ ≠ (.ok none, b)) :
    Passes registry isEnd constants ⟨[s], none⟩ work :=
  single hs nofun fun _ => hended

theorem definition {name : Token} {value : Expr} {s : Statement}
    (hs : ∀ isProgram output, (runStatement registry isProgram s).run ⟨constants, output⟩ =
      (calculate registry value >>= fun v => define name.text v >>= fun _ => pure none).run
        ⟨constants, output⟩) :
    Passes registry isEnd constants (Lowering.definition registry constants name value s)
      (runStatement registry isEnd s) := by
  have hrun : ∀ output, (runStatement registry isEnd s).run ⟨constants, output⟩ =
      match constant ⟨constants, registry, none⟩ value with
      | .ok v => (.ok none, ⟨constants.put name.text v, output⟩)
      | .error e => (.error e, ⟨constants, output⟩) := by
    intro output
    have hv : (calculate registry value).run ⟨constants, output⟩ =
        (constant ⟨constants, registry, none⟩ value, ⟨constants, output⟩) := rfl
    rw [hs, run_bind, hv]
    cases constant ⟨constants, registry, none⟩ value <;> rfl
  refine single (fun _ _ output => (hs _ output).trans (hs _ output).symm) ?_ ?_
  · intro k hk output
    rw [hrun]
    cases hv : constant ⟨constants, registry, none⟩ value with
    | error e =>
      rw [hv] at hk
      cases hk
    | ok v =>
      rw [hv] at hk
      cases hk
      rfl
  · intro hk output b
    rw [hrun]
    cases hv : constant ⟨constants, registry, none⟩ value with
    | error e => nofun
    | ok v =>
      rw [hv] at hk
      cases hk

end Passes

theorem rule_yields (e : Expr) (b b' : Build) : (some <$> rule registry e).run b ≠ (.ok none, b') := by
  change (rule registry e >>= fun c => pure (some c)).run b ≠ (.ok none, b')
  rw [run_bind]
  cases (rule registry e).run b with
  | mk r u =>
    cases r with
    | error e => nofun
    | ok c => nofun

mutual

theorem statement_passes (isEnd : Bool) (constants : Keyed Value) : (s : Statement) →
    Passes registry isEnd constants (passStatement registry isEnd constants s)
      (runStatement registry isEnd s)
  | .declare name value => by
    rw [passStatement]
    exact .definition fun _ _ => by rw [runStatement]
  | .assign name value => by
    have hrun : ∀ isProgram output,
        (runStatement registry isProgram (.assign name value)).run ⟨constants, output⟩ =
          if (constants.get? name.text).isNone then (.error (.undefined name), ⟨constants, output⟩)
          else (calculate registry value >>= fun v => define name.text v >>= fun _ => pure none).run
            ⟨constants, output⟩ := by
      intro isProgram output
      rw [runStatement]
      change (if (constants.get? name.text).isNone then _ else _ : Building (Option Code)) _ = _
      split <;> rfl
    rw [passStatement]
    split
    · next hnone =>
      refine .last (fun _ _ output => (hrun _ output).trans (hrun _ output).symm) ?_
      intro output b
      rw [hrun, if_pos hnone]
      nofun
    · next hsome =>
      exact .definition fun isProgram output => by rw [hrun, if_neg hsome]
  | .branch condition taken otherwise => by
    have hcondition : ∀ output, (calculate registry condition).run ⟨constants, output⟩ =
        (constant ⟨constants, registry, none⟩ condition, ⟨constants, output⟩) := fun _ => rfl
    rw [passStatement]
    cases hv : constant ⟨constants, registry, none⟩ condition with
    | error e =>
      have hrun : ∀ isProgram taken otherwise output,
          (runStatement registry isProgram (.branch condition taken otherwise)).run
            ⟨constants, output⟩ = (.error e, ⟨constants, output⟩) := by
        intro isProgram taken otherwise output
        rw [runStatement]
        exact run_bind_error ((hcondition output).trans (by rw [hv])) _
      refine .last (fun _ _ output => (hrun _ _ _ output).trans (hrun _ _ _ output).symm) ?_
      intro output b
      rw [hrun]
      nofun
    | ok v =>
      have hrun : ∀ output, (runStatement registry isEnd (.branch condition taken otherwise)).run
          ⟨constants, output⟩ = (if v.asBool then runStatements registry false taken
            else runOtherwise registry otherwise).run ⟨constants, output⟩ := by
        intro output
        rw [runStatement]
        exact run_bind_ok ((hcondition output).trans (by rw [hv])) _
      dsimp only
      cases hb : v.asBool with
      | true => exact (statements_pass false constants taken).inner fun output => by rw [hrun, hb]; rfl
      | false => exact (otherwise_passes constants otherwise).inner fun output => by rw [hrun, hb]; rfl
  | .yield expr => by
    rw [passStatement]
    refine .last ?_ ?_
    · intro _ _ output
      rw [runStatement, runStatement]
    · intro output b
      rw [runStatement]
      exact rule_yields expr _ _
  | .block statements => by
    rw [passStatement]
    exact (statements_pass false constants statements).inner fun output => by rw [runStatement]
  | .bare expr => by
    rw [passStatement]
    cases isEnd with
    | true =>
      refine .last ?_ ?_
      · intro isProgram h output
        rw [h rfl]
        rfl
      · intro output b
        rw [runStatement]
        exact rule_yields expr _ _
    | false =>
      have hrun : ∀ output, (runStatement registry false (.bare expr)).run ⟨constants, output⟩ =
          (.error (.bareBeforeEnd expr.position), ⟨constants, output⟩) := by
        intro output
        rw [runStatement]
        rfl
      refine .last ?_ ?_
      · intro isProgram _ output
        rw [hrun]
        simp only [Bool.false_eq_true, if_false]
        rw [runStatement, runStatements_single, hrun]
      · intro output b
        rw [hrun]
        nofun

theorem statements_pass (isProgram : Bool) (constants : Keyed Value) : (ss : List Statement) →
    Passes registry isProgram constants (passStatements registry isProgram constants ss)
      (runStatements registry isProgram ss)
  | [] => by
    rw [passStatements, runStatements]
    exact .nothing
  | s :: rest => by
    rw [passStatements, runStatements_cons]
    have hs := statement_passes (isProgram && rest.isEmpty) constants s
    refine .andThen hs ?_ ?_
    · intro k hrest
      rw [List.isEmpty_iff.mp hrest, passStatements]
    · intro k
      exact statements_pass isProgram k rest

theorem otherwise_passes (constants : Keyed Value) : (s : Option Statement) →
    Passes registry false constants (passOtherwise registry constants s) (runOtherwise registry s)
  | none => by
    rw [passOtherwise, runOtherwise]
    exact .nothing
  | some s => by
    rw [passOtherwise, runOtherwise]
    exact statement_passes false constants s

end

/-! ### Their shape -/

def isDefinition : Statement → Bool
  | .declare _ _ | .assign _ _ => true
  | _ => false

/-- What a run may end with: a definition that fails, the rule, a condition without branches, or an
expression that is out of place. -/
def isFinal : Statement → Bool
  | .declare _ _ | .assign _ _ | .yield _ | .bare _ => true
  | .branch _ taken otherwise => taken.isEmpty && otherwise.isNone
  | .block statements => match statements with
    | [.bare _] => true
    | _ => false

/-- Definitions, and behind them at most one statement, with which the run has ended. -/
def Passage.Straight (p : Passage) : Prop :=
  ∃ definitions last, p.statements = definitions ++ Option.toList last ∧
    (∀ s ∈ definitions, isDefinition s = true) ∧ (∀ s ∈ last, isFinal s = true) ∧
    (p.next ≠ none → last = none)

namespace Passage.Straight

variable {p : Passage} {s : Statement}

theorem nothing (next : Option (Keyed Value)) : Straight ⟨[], next⟩ :=
  ⟨[], none, rfl, nofun, nofun, fun _ => rfl⟩

theorem last (h : isFinal s = true) : Straight ⟨[s], none⟩ := by
  refine ⟨[], some s, rfl, nofun, ?_, fun h => absurd rfl h⟩
  rintro _ ⟨⟩
  exact h

theorem definition {registry : Registry} {constants : Keyed Value} {name : Token} {value : Expr}
    (h : isDefinition s = true) : (Lowering.definition registry constants name value s).Straight := by
  refine ⟨[s], none, rfl, ?_, nofun, fun _ => rfl⟩
  intro t ht
  rw [List.mem_singleton.mp ht]
  exact h

theorem andThen {rest : Keyed Value → Passage} (h : p.Straight) (hrest : ∀ k, (rest k).Straight) :
    (p.andThen rest).Straight := by
  rw [Passage.andThen]
  cases hnext : p.next with
  | none => exact h
  | some k =>
    obtain ⟨ds, last, hp, hds, -, hnone⟩ := h
    obtain rfl := hnone (by rw [hnext]; nofun)
    obtain ⟨es, last', hk, hes, hlast', hnone'⟩ := hrest k
    refine ⟨ds ++ es, last', ?_, ?_, hlast', hnone'⟩
    · simp only [hp, hk, Option.toList_none, List.append_nil, List.append_assoc]
    · intro t ht
      rcases List.mem_append.mp ht with ht | ht
      · exact hds t ht
      · exact hes t ht

end Passage.Straight

mutual

theorem statement_straight (isEnd : Bool) (constants : Keyed Value) : (s : Statement) →
    (passStatement registry isEnd constants s).Straight
  | .declare name value => by
    rw [passStatement]
    exact .definition rfl
  | .assign name value => by
    rw [passStatement]
    split
    · exact .last rfl
    · exact .definition rfl
  | .branch condition taken otherwise => by
    rw [passStatement]
    cases constant ⟨constants, registry, none⟩ condition with
    | error e => exact .last rfl
    | ok v =>
      dsimp only
      split
      · exact statements_straight false constants taken
      · exact otherwise_straight constants otherwise
  | .yield expr => by
    rw [passStatement]
    exact .last rfl
  | .block statements => by
    rw [passStatement]
    exact statements_straight false constants statements
  | .bare expr => by
    rw [passStatement]
    cases isEnd <;> exact .last rfl

theorem statements_straight (isProgram : Bool) (constants : Keyed Value) : (ss : List Statement) →
    (passStatements registry isProgram constants ss).Straight
  | [] => by
    rw [passStatements]
    exact .nothing _
  | s :: rest => by
    rw [passStatements]
    exact .andThen (statement_straight _ constants s) fun k => statements_straight isProgram k rest

theorem otherwise_straight (constants : Keyed Value) : (s : Option Statement) →
    (passOtherwise registry constants s).Straight
  | none => by
    rw [passOtherwise]
    exact .nothing _
  | some s => by
    rw [passOtherwise]
    exact statement_straight false constants s

end

/-! ### Programs -/

theorem program_of_statements {p q : Program} {b : Build}
    (h : (runStatements registry true p).run b = (runStatements registry true q).run b) :
    (program registry p).run b = (program registry q).run b := by
  rw [program, program, run_bind, run_bind, h]

theorem program_reached (p : Program) (b : Build) :
    (program registry (reached registry b.constants p)).run b = (program registry p).run b := by
  apply program_of_statements
  exact (statements_pass true b.constants p).run true (fun _ => rfl) b.output

/-- A program gives the same code or error, with the same constants and the same output, if a branch that is
reached, and that something stands behind, is replaced by the statements that it stands for. And so it
gives the same as the statements that are reached alone, which are definitions and at most one statement
behind them; programs that reach the same statements give the same. -/
theorem branch_selected (registry : Registry) :
    (∀ (pre rest taken : List Statement) (otherwise : Option Statement) (condition : Expr) (v : Value)
      (b b' : Build), rest ≠ [] → (runStatements registry false pre).run b = (.ok none, b') →
        constant ⟨b'.constants, registry, none⟩ condition = .ok v →
        (program registry (pre ++ [.branch condition taken otherwise] ++ rest)).run b =
          (program registry (pre ++ chosen v taken otherwise ++ rest)).run b) ∧
    ∀ (p : Program) (b : Build),
      (program registry p).run b = (program registry (reached registry b.constants p)).run b ∧
      (∃ definitions last, reached registry b.constants p = definitions ++ Option.toList last ∧
        (∀ s ∈ definitions, isDefinition s = true) ∧ ∀ s ∈ last, isFinal s = true) ∧
      ∀ q, reached registry b.constants q = reached registry b.constants p →
        (program registry q).run b = (program registry p).run b := by
  constructor
  · intro pre rest taken otherwise condition v b b' hrest hreached hv
    apply program_of_statements
    refine run_between hrest hreached ?_ true
    rw [runStatements_single]
    exact run_branch hv false taken otherwise
  · intro p b
    refine ⟨(program_reached p b).symm, ?_, ?_⟩
    · obtain ⟨definitions, last, hp, hdefinitions, hlast, -⟩ := statements_straight true b.constants p
      exact ⟨definitions, last, hp, hdefinitions, hlast⟩
    · intro q hq
      rw [← program_reached q b, hq, program_reached]

/-- The name of a constant. -/
def limitName : Token := ⟨.name, "limit", .nowhere⟩

def wholeNumber (n : Int64) : Expr := .scalar (.integer n) ⟨.integer, toString n.toInt, .nowhere⟩

/-- Defines the limit, gives it another value if it is greater than one, and then compares with it. -/
def limitRaised : List Statement :=
  [.assign limitName (wholeNumber 3), .yield (.compare .greater (.ident limitName))]

/-- What is defined in the branch is seen by the rule that the branch yields, and the rule behind is not
reached. -/
theorem branch_selected_with_definition :
    let pre : List Statement := [.declare limitName (wholeNumber 2)]
    let condition : Expr := .binary (.compare .greater) (.ident limitName) (wholeNumber 1)
    let rest : List Statement := [.bare (.compare .equal (wholeNumber 9))]
    let defined : Build := ⟨.put .empty "limit" (.integer 2), .empty⟩
    rest ≠ [] ∧ (runStatements .empty false pre).run ⟨.empty, .empty⟩ = (.ok none, defined) ∧
      constant ⟨defined.constants, .empty, none⟩ condition = .ok (.boolean true) ∧
      (program .empty (pre ++ [.branch condition limitRaised none] ++ rest)).run ⟨.empty, .empty⟩ =
        (program .empty (pre ++ limitRaised ++ rest)).run ⟨.empty, .empty⟩ ∧
      reached .empty .empty (pre ++ [.branch condition limitRaised none] ++ rest) = pre ++ limitRaised ∧
      ((program .empty (pre ++ limitRaised)).run ⟨.empty, .empty⟩).1 =
        .ok (.compare .greater (.literal (.integer 3))) := by
  intro pre condition rest defined
  have hrest : rest ≠ [] := List.cons_ne_nil _ _
  have hpre : (runStatements .empty false pre).run ⟨.empty, .empty⟩ = (.ok none, defined) := rfl
  have hcondition : constant ⟨defined.constants, .empty, none⟩ condition = .ok (.boolean true) := rfl
  have hsame := (branch_selected .empty).1 pre rest limitRaised none condition _ _ _ hrest hpre hcondition
  exact ⟨hrest, hpre, hcondition, hsame, rfl, rfl⟩

end EventRules.Lowering
