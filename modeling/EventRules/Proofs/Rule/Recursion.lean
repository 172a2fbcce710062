import EventRules.Proofs.Rule.Attempting
import EventRules.Proofs.Rule.Conservation

/-!
# The recursions of the grammar come to an end

A construct reads what is nested in it by calling the step for expressions again, and a loop goes on
while its test holds; neither has a bound. The steps here have one, the weight or the number of the
tokens ahead. They satisfy the equations without a bound, and nothing else does: an equation that a run
unfolds forever would leave its result open. So no run unfolds one forever, and no bound is ever met.
-/

namespace EventRules
set_option autoImplicit false

open Token Routine Parse Respelling

variable {α : Type} {F : Parse α → Parse α} {f g : Parse α} {p q : Parser}

/-! ### Expressions -/

/-- However deep, the step for expressions is the same where the depth suffices. -/
theorem expression_of_nested {n d : Nat} (h : n ≤ d) : NestedWalks n (nestedExpression d) expression := by
  intro p hp
  have hle : weight p.ahead + 1 ≤ d := Nat.le_trans hp.weight_lt h
  exact (nestedExpression_walks hle (Nat.le_refl _) p (.own hp.ended)).congr rfl rfl

theorem expression_determined : Determined joined expression := by
  refine .of_descent (fun p => weight p.ahead) (fun p hp => ?_) fun g p hp hless => ?_
  · exact (joined_walks (expression_of_nested (Nat.le_refl _)) p (.own hp)).same.symm
  · have hn : NestedWalks (weight p.ahead) expression g := by
      intro q hq
      exact (expression_walks hq.ended).congr rfl (hless q hq.ended hq.weight_lt)
    exact (joined_walks hn p (.own hp)).same

/-! ### Levels of operators -/

section

variable {k : Nat} {tighter tighter' : Parse Expr} (ht : WalksAlways tighter)
include ht

/-- Behind an operator and its operand there is less ahead. -/
theorem operatorThen_congr {rest rest' : Expr → Parse Expr} (hp : p.last.isEnd = true)
    (htighter : ∀ q : Parser, q.last.isEnd = true → q.table = p.table → weight q.ahead < weight p.ahead →
      tighter'.run q = tighter.run q)
    (hrest : ∀ left (q : Parser), q.last.isEnd = true → q.table = p.table →
      weight q.ahead ≤ weight p.ahead → total q.ahead + 2 ≤ total p.ahead →
        (rest' left).run q = (rest left).run q) (left : Expr) :
    (operatorThen k tighter' rest' left).run p = (operatorThen k tighter rest left).run p := by
  cases hat : atLevel k p with
  | false => rw [operatorThen_stop hat, operatorThen_stop hat]
  | true =>
    have hk := operator_of_atLevel hat
    have hsize := size_of_operator hk
    have hadvanced := Parser.Reaches.advanced hp (not_end_of_operator hk)
    have hwithin := (Parser.Within.own hp).behind hadvanced
    have hless := hadvanced.total_le
    rw [operatorThen_some _ _ _ hat, operatorThen_some _ _ _ hat]
    cases BinaryOp.ofSymbol? p.current.text with
    | none => rfl
    | some op =>
      dsimp only
      rw [run_bind_ok (advance_run p), run_bind_ok (advance_run p),
        run_bind_congr (htighter p.advanced hwithin.ended hadvanced.table hwithin.weight_lt)]
      refine run_bind_next fun right q hright => ?_
      obtain ⟨ts, hts, hkept⟩ := (ht p.advanced hwithin.ended).answer hright
      have hpassed := hkept.total_ge
      have htotal := hts.total_le
      have hweight := hts.weight_le
      refine hrest _ q (hts.ended hwithin.ended) (hts.table.trans hadvanced.table) ?_ ?_
      · have hlt := hwithin.weight_lt
        omega
      · rw [total_cons] at hless
        omega

/-- Two numbers of rounds that the tokens ahead allow are alike. -/
theorem operatorsUpTo_congr {bound : Nat} {table : Precedence}
    (htighter : ∀ q : Parser, q.last.isEnd = true → q.table = table → weight q.ahead < bound →
      tighter'.run q = tighter.run q)
    (hp : p.last.isEnd = true) (htable : p.table = table) (hbound : weight p.ahead ≤ bound)
    {rounds rounds' : Nat} (hrounds : total p.ahead ≤ 2 * rounds) (hrounds' : total p.ahead ≤ 2 * rounds')
    (left : Expr) :
    (operatorsUpTo k tighter' rounds' left).run p = (operatorsUpTo k tighter rounds left).run p := by
  induction rounds generalizing p rounds' left with
  | zero =>
    have hat : atLevel k p = false := Bool.eq_false_iff.mpr fun hat => by
      have hpos := Parser.total_of_operator hp (operator_of_atLevel hat)
      omega
    rw [operatorsUpTo_stop hat, operatorsUpTo_stop hat]
  | succ rounds ih =>
    cases hat : atLevel k p with
    | false => rw [operatorsUpTo_stop hat, operatorsUpTo_stop hat]
    | true =>
      have hpos := Parser.total_of_operator hp (operator_of_atLevel hat)
      obtain ⟨rounds', rfl⟩ : ∃ n, rounds' = n + 1 := ⟨rounds' - 1, by omega⟩
      refine operatorThen_congr ht hp (fun q hq hsame hlt => ?_) (fun left q hq hsame hweight htotal => ?_) left
      · exact htighter q hq (hsame.trans htable) (Nat.lt_of_lt_of_le hlt hbound)
      · exact ih hq (hsame.trans htable) (Nat.le_trans hweight hbound) (by omega) (by omega) left

theorem operators_congr {bound : Nat}
    (htighter : ∀ q : Parser, q.last.isEnd = true → q.table = p.table → weight q.ahead < bound →
      tighter'.run q = tighter.run q)
    (hp : p.last.isEnd = true) (hbound : weight p.ahead ≤ bound) (left : Expr) :
    (operators k tighter' left).run p = (operators k tighter left).run p :=
  operatorsUpTo_congr ht htighter hp rfl hbound (total_le _) (total_le _) left

theorem operators_determined : EachDetermined (operatorThen k tighter) (operators k tighter) := by
  have hrounds : ∀ {p : Parser} {n : Nat} left, p.last.isEnd = true → total p.ahead ≤ 2 * n →
      (operatorsUpTo k tighter n left).run p = (operators k tighter left).run p := fun left hp hn =>
    operatorsUpTo_congr ht (fun _ _ _ _ => rfl) hp rfl (Nat.le_refl _) (total_le _) hn left
  refine .of_descent (fun p => total p.ahead) (fun _ _ => 0) (fun left p hp => ?_)
    fun g left p hp hless _ => ?_
  · have hbound := total_le p.ahead
    calc (operators k tighter left).run p
      _ = (operatorsUpTo k tighter (p.ahead.length + 1) left).run p := (hrounds left hp (by omega)).symm
      _ = (operatorThen k tighter (operatorsUpTo k tighter p.ahead.length) left).run p := rfl
      _ = (operatorThen k tighter (operators k tighter) left).run p :=
        operatorThen_congr ht hp (fun _ _ _ _ => rfl)
          (fun left q hq _ _ htotal => hrounds left hq (by omega)) left
  · exact operatorThen_congr ht hp (fun _ _ _ _ => rfl)
      (fun left q hq _ _ htotal => hless left q hq (by omega)) left

end

/-- A level and its operators, when the step for the next level is put in another way. -/
theorem level_congr {k : Nat} {next next' : Parse Expr} (hn : WalksAlways next) (hp : p.last.isEnd = true)
    (hsame : next'.run p = next.run p)
    (hless : ∀ q : Parser, q.last.isEnd = true → q.table = p.table → weight q.ahead < weight p.ahead →
      next'.run q = next.run q) :
    (next' >>= operators k next').run p = (next >>= operators k next).run p := by
  rw [run_bind_congr hsame]
  refine run_bind_next fun left q hleft => ?_
  obtain ⟨ts, hts, -⟩ := (hn p hp).answer hleft
  have hweight := hts.weight_le
  refine operators_congr hn (fun q' hq' htable hlt => ?_) (hts.ended hp) (Nat.le_refl _) left
  exact hless q' hq' (htable.trans hts.table) (by omega)

theorem expression_walksAlways : WalksAlways expression := fun _ hp => expression_walks hp

theorem level_zero_expression (hp : p.last.isEnd = true) : (level expression 0).run p = expression.run p :=
  (level_zero_run expression_walksAlways hp).trans (expression_determined.solves p hp).symm

/-- Level `k`, over steps for all levels: it calls the next one where it stands. -/
def Parse.levelThen (levels : Nat → Parse Expr) (k : Nat) : Parse Expr := do
  let p ← state
  if p.table.levels.length ≤ k then operand (levels 0)
  else
    let left ← levels (k + 1)
    operators k (levels (k + 1)) left

theorem levelThen_operand {k : Nat} (levels : Nat → Parse Expr) (h : p.table.levels.length ≤ k) :
    (levelThen levels k).run p = (operand (levels 0)).run p := by
  rw [levelThen, run_bind_ok (run_state p), if_pos h]

theorem levelThen_next {k : Nat} (levels : Nat → Parse Expr) (h : ¬ p.table.levels.length ≤ k) :
    (levelThen levels k).run p = (levels (k + 1) >>= operators k (levels (k + 1))).run p := by
  rw [levelThen, run_bind_ok (run_state p), if_neg h]

theorem level_solves (k : Nat) (hp : p.last.isEnd = true) :
    (level expression k).run p = (levelThen (level expression) k).run p := by
  have hcount : ∀ {k count : Nat} {q : Parser}, q.table.levels.length - k = count →
      (level expression k).run q = (levelsFrom expression count k).run q := by
    rintro k _ q rfl
    rfl
  by_cases hk : p.table.levels.length ≤ k
  · have hnested : NestedWalks (weight p.ahead) expression (level expression 0) :=
      fun q hq => (expression_walks hq.ended).congr rfl (level_zero_expression hq.ended)
    rw [levelThen_operand _ hk, (operand_walks hnested (.own hp)).same, hcount (by omega : _ = 0)]
    rfl
  · obtain ⟨count, hnext⟩ : ∃ n, p.table.levels.length - k = n + 1 :=
      ⟨p.table.levels.length - k - 1, by omega⟩
    rw [levelThen_next _ hk, hcount hnext]
    refine level_congr (expression_walksAlways.level (k + 1)) hp (hcount (by omega)).symm
      fun q hq htable _ => (hcount ?_).symm
    rw [htable]
    omega

/-- The levels call each other without passing a token until the table has no further one, and what is
nested in an operand begins at the first level again. -/
theorem levels_determined : EachDetermined levelThen (level expression) := by
  refine .of_descent (fun p => weight p.ahead) (fun k p => p.table.levels.length - k)
    (fun k p hp => level_solves k hp) fun g k p hp hless hnext => ?_
  by_cases hk : p.table.levels.length ≤ k
  · have hnested : NestedWalks (weight p.ahead) (level expression 0) (g 0) := fun q hq =>
      ((expression_walksAlways.level 0) q hq.ended).congr rfl (hless 0 q hq.ended hq.weight_lt)
    rw [levelThen_operand _ hk, levelThen_operand _ hk]
    exact (operand_walks hnested (.own hp)).same
  · rw [levelThen_next _ hk, levelThen_next _ hk]
    exact level_congr (expression_walksAlways.level (k + 1)) hp (hnext (k + 1) (by omega))
      fun q hq _ hlt => hless (k + 1) q hq hlt

/-! ### Statements -/

/-- A statement, at a depth that suffices for the tokens ahead. -/
def Parse.oneStatement : Parse Statement := do
  let p ← state
  nestedStatement (weight p.ahead + 1)

theorem statement_of_nested {n d : Nat} (h : n ≤ d) :
    NestedStatementWalks n (nestedStatement d) oneStatement := by
  intro p hp
  have hle : weight p.ahead + 1 ≤ d := Nat.le_trans hp.weight_lt h
  exact (nestedStatement_walks hle (Nat.le_refl _) p (.own hp.ended)).congr rfl rfl

theorem oneStatement_walks (hp : p.last.isEnd = true) :
    Walks (Keeps Statement.atoms 0) oneStatement oneStatement p :=
  (nestedStatement_walks (Nat.le_refl _) (Nat.le_refl _) p (.own hp)).congr rfl rfl

theorem statement_determined : Determined statement oneStatement := by
  refine .of_descent (fun p => weight p.ahead) (fun p hp => ?_) fun g p hp hless => ?_
  · exact (statement_walks (statement_of_nested (Nat.le_refl _)) p (.own hp)).same.symm
  · have hn : NestedStatementWalks (weight p.ahead) oneStatement g := by
      intro q hq
      exact (oneStatement_walks hq.ended).congr rfl (hless q hq.ended hq.weight_lt)
    exact (statement_walks hn p (.own hp)).same

/-- The first of some statements, and those behind it. -/
def Parse.statementThen (stop : Token → Bool) (item : Parse Statement) (rest : Parse (List Statement)) :
    Parse (List Statement) := do
  let t ← current
  if stop t || t.isEnd then return []
  let s ← item
  let separators ← many (·.isOperator ";") advance
  if separators.isEmpty then return [s]
  let ss ← rest
  return s :: ss

/-- Statements go on behind a semicolon, so there is less ahead. -/
theorem statementThen_congr {stop : Token → Bool} {rest rest' : Parse (List Statement)}
    (hp : p.last.isEnd = true)
    (h : ∀ q : Parser, q.last.isEnd = true → total q.ahead < total p.ahead → rest'.run q = rest.run q) :
    (statementThen stop oneStatement rest').run p = (statementThen stop oneStatement rest).run p := by
  have hcurrent : Parse.current.run p = (.ok p.current, p) := rfl
  rw [statementThen, statementThen, run_bind_ok hcurrent, run_bind_ok hcurrent]
  cases stop p.current || p.current.isEnd with
  | true => rfl
  | false =>
    simp only [Bool.false_eq_true, if_false]
    refine run_bind_next fun s q hstatement => ?_
    obtain ⟨ts, hts, -⟩ := (oneStatement_walks hp).answer hstatement
    have hq := hts.ended hp
    refine run_bind_next fun separators q' hseparators => ?_
    cases hempty : separators.isEmpty with
    | true => rfl
    | false =>
      obtain ⟨us, hus, hkept⟩ := (Walks.many (fun t ht => (operator_of_isOperator ht).1)
        separator_walks (.own hq)).answer hseparators
      have hsome : 1 ≤ separators.length := List.length_pos_iff.mpr (by simpa using hempty)
      have hsize := hkept.total_ge
      have htotal := hts.total_le
      have htotal' := hus.total_le
      simp only [Bool.false_eq_true, if_false]
      exact run_bind_congr (h q' (hus.ended hq) (by omega)) _

theorem statements_determined (stop : Token → Bool) :
    Determined (statementThen stop oneStatement) (statements stop oneStatement) := by
  have hrounds : ∀ {p : Parser} {n : Nat}, p.last.isEnd = true → total p.ahead + 2 ≤ 2 * n →
      (statementsUpTo stop oneStatement n).run p = (statements stop oneStatement).run p := by
    intro p n hp hn
    have hbound := total_le p.ahead
    have hone : NestedStatementWalks (weight p.ahead + 1) oneStatement oneStatement :=
      fun q hq => oneStatement_walks hq.ended
    have hwalk : Walks _ (statementsUpTo stop oneStatement (p.ahead.length + 1))
        (statementsUpTo stop oneStatement n) p := statementsUpTo_walk hone (.own hp) (by omega) hn
    exact hwalk.same
  refine .of_descent (fun p => total p.ahead) (fun p hp => ?_) fun g p hp hless =>
    statementThen_congr hp hless
  have hbound := total_le p.ahead
  calc (statements stop oneStatement).run p
    _ = (statementsUpTo stop oneStatement (p.ahead.length + 2)).run p := (hrounds hp (by omega)).symm
    _ = (statementThen stop oneStatement (statementsUpTo stop oneStatement (p.ahead.length + 1))).run p := rfl
    _ = (statementThen stop oneStatement (statements stop oneStatement)).run p :=
      statementThen_congr hp fun q hq hlt => hrounds hq (by omega)

/-! ### The grammar -/

/-- Every recursion and every loop of the grammar is determined by its equation without a bound. -/
structure GrammarDetermined : Prop where
  expressions : Determined joined expression
  prefixes : Determined (round (fun p => (unaryOp? p.current).isSome) advance)
    (many (fun t => (unaryOp? t).isSome) advance)
  links : Determined (round (fun p => (operatorRank? p).isSome) (link expression))
    (roundsAhead (fun p => (operatorRank? p).isSome) (link expression))
  levels : EachDetermined levelThen (level expression)
  operators : ∀ k, EachDetermined (operatorThen k (level expression (k + 1)))
    (operators k (level expression (k + 1)))
  climbing : ∀ p : Parser, p.last.isEnd = true → climb.run p = expression.run p
  parameters : Determined nameThen names
  parentheses : ∀ p : Parser, p.last.isEnd = true →
    (parenthesisedByTrial expression).run p = (parenthesised expression).run p
  stages : Determined (round (·.current.isOperator "->") (do let _ ← advance; stage expression))
    (many (·.isOperator "->") (do let _ ← advance; stage expression))
  arguments : Determined
    (round (·.current.isOperator ",") (do let _ ← advance; withTable .standard expression))
    (many (·.isOperator ",") (do let _ ← advance; withTable .standard expression))
  calls : Determined (round (·.current.isOperator ".") (chainElement expression))
    (many (·.isOperator ".") (chainElement expression))
  separators : Determined (round (·.current.isOperator ";") advance) (many (·.isOperator ";") advance)
  inBlocks : Determined statement oneStatement
  sequences : ∀ stop, Determined (statementThen stop oneStatement) (statements stop oneStatement)
  programs : ∀ p : Parser, p.last.isEnd = true → program.run p = (do
    let body ← statements Token.isEnd oneStatement
    expectEnd
    return body : Parse Program).run p

theorem grammarDetermined : GrammarDetermined where
  expressions := expression_determined
  prefixes := loop_determined (fun p hp hunary => prefix_walks p (.own hp) hunary)
    fun p hunary => operator_of_unary hunary
  links := loop_determined (fun p hp hrank => link_walks (d := weight p.ahead)
    (fun q hq => expression_walks hq.ended) (.own hp) (operator_of_rank hrank)) fun p => operator_of_rank
  levels := levels_determined
  operators k := operators_determined (expression_walksAlways.level (k + 1))
  climbing _ := climb_run
  parameters := names_determined
  parentheses _ := parenthesisedByTrial_run expression
  stages := loop_determined (fun p hp harrow => next_stage_walks (d := weight p.ahead)
    (fun q hq => expression_walks hq.ended) (.own hp) harrow) fun p h => (operator_of_isOperator h).1
  arguments := loop_determined (fun p hp hcomma => next_argument_walks (d := weight p.ahead + 1)
    (fun q hq => expression_walks hq.ended) (.own hp) hcomma) fun p h => (operator_of_isOperator h).1
  calls := loop_determined (fun p hp hpoint => chainElement_walks (d := weight p.ahead)
    (fun q hq => expression_walks hq.ended) (.own hp) hpoint) fun p h => (operator_of_isOperator h).1
  separators := loop_determined (fun p hp hsemicolon => separator_walks p (.own hp) hsemicolon)
    fun p h => (operator_of_isOperator h).1
  inBlocks := statement_determined
  sequences := statements_determined
  programs := by
    intro p hp
    have hn : NestedStatementWalks (weight p.ahead + 1) (nestedStatement (weight p.ahead + 1)) oneStatement :=
      statement_of_nested (Nat.le_refl _)
    have hwalk : Walks _ (statements Token.isEnd (nestedStatement (weight p.ahead + 1)))
        (statements Token.isEnd oneStatement) p := statements_walk hn (.own hp)
    rw [program, run_bind_ok (run_state p), run_bind, run_bind, hwalk.same]

end EventRules
