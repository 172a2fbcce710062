import EventRules.Proofs.Rule.Climbing

/-!
# Trying the parameters of an anonymous function

The attempt to read parameters passes just the tokens that the lookahead counts, and comes back to where it
began if that sees none. So a parenthesis is read as if the parser had tried.
-/

namespace EventRules
set_option autoImplicit false

open Token Routine Parse

variable {α : Type} {p : Parser} {table : Precedence} {last : Token} {ts : List Token}

namespace Parse

/-! ### Names -/

theorem sees_run (test : Token → Bool) (p : Parser) : (sees test).run p = (.ok (test p.current), p) := rfl

theorem nameThen_stop (more : Parse (List Token)) (h : p.current.isName = false) :
    (nameThen more).run p = (.ok [], p) := by
  rw [nameThen, run_bind_ok (sees_run _ p), h]
  rfl

/-- Behind a name and a comma there is less ahead. -/
theorem nameThen_congr {more more' : Parse (List Token)} (hp : p.last.isEnd = true)
    (h : ∀ q : Parser, q.last.isEnd = true → q.ahead.length < p.ahead.length → more'.run q = more.run q) :
    (nameThen more').run p = (nameThen more).run p := by
  cases hname : p.current.isName with
  | false => rw [nameThen_stop _ hname, nameThen_stop _ hname]
  | true =>
    have hend := not_end_of_name hname
    have hp₁ := (Parser.Reaches.advanced hp hend).ended hp
    have hless := congrArg List.length (Parser.ahead_advanced hp hend)
    rw [nameThen, nameThen, run_bind_ok (sees_run _ p), run_bind_ok (sees_run _ p), hname, if_pos rfl,
      if_pos rfl, run_bind_ok (advance_run p), run_bind_ok (advance_run p), run_bind_ok (sees_run _ _),
      run_bind_ok (sees_run _ _)]
    cases hcomma : p.advanced.current.isOperator "," with
    | false => rfl
    | true =>
      have hend₁ := not_end_of_operator (operator_of_isOperator hcomma).1
      have hp₂ := (Parser.Reaches.advanced hp₁ hend₁).ended hp₁
      have hless₁ := congrArg List.length (Parser.ahead_advanced hp₁ hend₁)
      rw [List.length_cons] at hless hless₁
      rw [if_pos rfl, if_pos rfl, run_bind_ok (advance_run _), run_bind_ok (advance_run _)]
      exact run_bind_congr (h p.advanced.advanced hp₂ (by omega)) _

/-- Two numbers of rounds that the tokens ahead allow are alike. -/
theorem namesUpTo_congr (hp : p.last.isEnd = true) {rounds rounds' : Nat} (hrounds : p.ahead.length ≤ rounds)
    (hrounds' : p.ahead.length ≤ rounds') : (namesUpTo rounds').run p = (namesUpTo rounds).run p := by
  have hstop : ∀ {p : Parser}, p.last.isEnd = true → p.ahead.length ≤ 0 → ∀ n,
      (namesUpTo n).run p = (.ok [], p) := by
    intro p hp hnone n
    have hname : p.current.isName = false := by
      rw [Parser.current, Parser.peek, List.length_eq_zero_iff.mp (Nat.le_zero.mp hnone)]
      exact not_name_of_end hp
    cases n with
    | zero => rfl
    | succ n => exact nameThen_stop _ hname
  induction rounds generalizing p rounds' with
  | zero => rw [hstop hp hrounds, hstop hp hrounds]
  | succ rounds ih =>
    cases rounds' with
    | zero => rw [hstop hp hrounds', hstop hp hrounds']
    | succ rounds' => exact nameThen_congr hp fun q hq hlt => ih hq (by omega) (by omega)

/-- A loop without a bound reads the same names. -/
theorem names_determined : Determined nameThen names := by
  have hrounds : ∀ {p : Parser} {n : Nat}, p.last.isEnd = true → p.ahead.length ≤ n →
      (namesUpTo n).run p = names.run p := fun hp hn => namesUpTo_congr hp (Nat.le_refl _) hn
  refine .of_descent (fun p => p.ahead.length) (fun p hp => ?_) fun g p hp hless => nameThen_congr hp hless
  calc names.run p
    _ = (namesUpTo (p.ahead.length + 1)).run p := (hrounds hp (Nat.le_succ _)).symm
    _ = (nameThen (namesUpTo p.ahead.length)).run p := rfl
    _ = (nameThen names).run p := nameThen_congr hp fun q hq hlt => hrounds hq (Nat.le_of_lt hlt)

/-- The last name is one with no comma behind it. -/
theorem reads_last_name {t : Token} {rest : List Token} {more : Parse (List Token)} (hname : t.isName = true)
    (hcomma : (follower last rest).isOperator "," = false) : Reads (nameThen more) table last [t] rest [t] :=
  .sees_bind true hname (.token_bind (.advance (not_end_of_name hname)) (.sees_bind false hcomma (.pure [t])))

theorem reads_nameThen {t comma : Token} {front rest params : List Token} {more : Parse (List Token)}
    (hname : t.isName = true) (hcomma : comma.isOperator "," = true)
    (h : Reads more table last front rest params) :
    Reads (nameThen more) table last (t :: comma :: front) rest (t :: params) := by
  have hpassed := not_end_of_operator (operator_of_isOperator hcomma).1
  refine .sees_bind true hname (.token_bind (.advance (not_end_of_name hname)) ?_)
  exact .sees_bind true hcomma (.token_bind (.advance hpassed) (.settle h (.pure (t :: params))))

/-- The names are passed with the commas behind them, and the lookahead goes on with what is left. -/
theorem reads_namesUpTo (table : Precedence) (hlast : last.isEnd = true) {rounds : Nat}
    (hrounds : ts.length ≤ rounds) : ∃ front rest params, ts = front ++ rest ∧
      (∀ t ∈ front, t.isEnd = false) ∧ Reads (namesUpTo rounds) table last front rest params ∧
      lambdaHead?.params ts = (lambdaHead?.close rest).map fun n => (params, front.length + n) := by
  induction rounds generalizing ts with
  | zero =>
    obtain rfl := List.length_eq_zero_iff.mp (Nat.le_zero.mp hrounds)
    exact ⟨[], [], [], rfl, List.forall_mem_nil _, .pure [], rfl⟩
  | succ rounds ih =>
    cases ts with
    | nil =>
      have hname := not_name_of_end hlast
      exact ⟨[], [], [], rfl, List.forall_mem_nil _, .sees_bind false hname (.pure []), rfl⟩
    | cons t behind =>
      cases hname : t.isName with
      | false =>
        refine ⟨[], t :: behind, [], rfl, List.forall_mem_nil _, .sees_bind false hname (.pure []), ?_⟩
        cases behind <;> simp [lambdaHead?.params, lambdaHead?.close, hname]
      | true =>
        have hpassed := not_end_of_name hname
        cases behind with
        | nil =>
          have hcomma := not_operator_of_end hlast ","
          exact ⟨[t], [], [t], rfl, List.forall_mem_singleton.mpr hpassed,
            reads_last_name hname hcomma, rfl⟩
        | cons u others =>
          rw [lambdaHead?.params, if_pos hname]
          cases hcomma : u.isOperator "," with
          | false =>
            refine ⟨[t], u :: others, [t], rfl, List.forall_mem_singleton.mpr hpassed,
              reads_last_name hname hcomma, ?_⟩
            simp [Nat.add_comm]
          | true =>
            have hpassed' := not_end_of_operator (operator_of_isOperator hcomma).1
            have hlength : others.length ≤ rounds := by
              simp only [List.length_cons] at hrounds
              omega
            obtain ⟨front, rest, params, rfl, hfront, hreads, hhead⟩ := ih hlength
            refine ⟨t :: u :: front, rest, t :: params, rfl, ?_, reads_nameThen hname hcomma hreads, ?_⟩
            · exact List.forall_mem_cons.mpr ⟨hpassed, List.forall_mem_cons.mpr ⟨hpassed', hfront⟩⟩
            · rw [if_pos rfl, hhead, Option.map_map]
              congr 1
              funext n
              simp only [Function.comp_apply, List.length_cons, Prod.mk.injEq, true_and]
              omega

/-! ### The arrow behind them -/

/-- A parenthesis with no arrow behind it. -/
theorem reads_missing_arrow {t : Token} {rest : List Token} (params : List Token)
    (hclosing : t.isBracket ")" = true) (harrow : (follower last rest).isOperator "->" = false) :
    Reads (arrowBehind params) table last [t] rest none :=
  .sees_bind true hclosing
    (.token_bind (.advance (not_end_of_bracket hclosing)) (.sees_bind false harrow (.pure none)))

/-- Of the tokens behind the names as many are passed as are an arrow with its parenthesis. -/
theorem reads_arrowBehind (table : Precedence) (hlast : last.isEnd = true) (ts params : List Token) :
    ∃ front rest, ts = front ++ rest ∧ (∀ t ∈ front, t.isEnd = false) ∧
      Reads (arrowBehind params) table last front rest ((lambdaHead?.close ts).map fun _ => params) ∧
      ∀ n, lambdaHead?.close ts = some n → n = front.length := by
  have hmissing : ∀ {m : Nat} n, (none : Option Nat) = some n → n = m := fun n h => by cases h
  cases ts with
  | nil =>
    have hclosing := not_bracket_of_end hlast ")"
    exact ⟨[], [], rfl, List.forall_mem_nil _, .sees_bind false hclosing (.pure none), hmissing⟩
  | cons t behind =>
    cases hclosing : t.isBracket ")" with
    | false =>
      rw [NoParameters.close_eq_none hclosing]
      exact ⟨[], t :: behind, rfl, List.forall_mem_nil _, .sees_bind false hclosing (.pure none), hmissing⟩
    | true =>
      have hpassed := not_end_of_bracket hclosing
      cases behind with
      | nil =>
        have harrow := not_operator_of_end hlast "->"
        exact ⟨[t], [], rfl, List.forall_mem_singleton.mpr hpassed,
          reads_missing_arrow params hclosing harrow, hmissing⟩
      | cons u others =>
        rw [lambdaHead?.close, hclosing]
        cases harrow : u.isOperator "->" with
        | false =>
          exact ⟨[t], u :: others, rfl, List.forall_mem_singleton.mpr hpassed,
            reads_missing_arrow params hclosing harrow, hmissing⟩
        | true =>
          have hpassed' := not_end_of_operator (operator_of_isOperator harrow).1
          refine ⟨[t, u], others, rfl, ?_, ?_, ?_⟩
          · simp [hpassed, hpassed']
          · exact .sees_bind true hclosing (.token_bind (.advance hpassed)
              (.sees_bind true harrow (.token_bind (.advance hpassed') (.pure (some params)))))
          · intro n h
            cases h
            rfl

/-! ### All of it -/

/-- The step for the parameters answers what the lookahead sees, behind the tokens that this counts. -/
theorem reads_lambdaParameters (table : Precedence) (hlast : last.isEnd = true) (ts : List Token) :
    ∃ front rest, ts = front ++ rest ∧ (∀ t ∈ front, t.isEnd = false) ∧
      Reads lambdaParameters table last front rest ((lambdaHead? ts).map Prod.fst) ∧
      ∀ params n, lambdaHead? ts = some (params, n) → n = front.length := by
  have hmissing : ∀ {m : Nat} params n, (none : Option (List Token × Nat)) = some (params, n) → n = m :=
    fun params n h => by cases h
  cases ts with
  | nil =>
    have hopening := not_bracket_of_end hlast "("
    exact ⟨[], [], rfl, List.forall_mem_nil _, .sees_bind false hopening (.pure none), hmissing⟩
  | cons t ts =>
    rw [lambdaHead?]
    cases hopening : t.isBracket "(" with
    | false =>
      exact ⟨[], t :: ts, rfl, List.forall_mem_nil _, .sees_bind false hopening (.pure none), hmissing⟩
    | true =>
      have hpassed := not_end_of_bracket hopening
      obtain ⟨front, behind, params, hts, hfront, hnames, hhead⟩ :=
        reads_namesUpTo table hlast (Nat.le_refl ts.length)
      obtain ⟨arrow, rest, rfl, harrow, hreads, hcount⟩ := reads_arrowBehind table hlast behind params
      refine ⟨t :: (front ++ arrow), rest, by rw [hts]; simp, ?_, ?_, ?_⟩
      · exact List.forall_mem_cons.mpr ⟨hpassed, List.forall_mem_append.mpr ⟨hfront, harrow⟩⟩
      · have hall : Reads names table last front (arrow ++ rest) params := by
          refine .state_bind fun passed => ?_
          rw [← hts]
          exact hnames
        rw [if_pos rfl, hhead]
        simp only [Option.map_map, Function.comp_def]
        exact .sees_bind true hopening (.token_bind (.advance hpassed) (.bind hall hreads))
      · intro ps n h
        rw [if_pos rfl, hhead, Option.map_map, Option.map_eq_some_iff] at h
        obtain ⟨m, hclose, heq⟩ := h
        have hm := hcount m hclose
        simp only [Function.comp_apply, Prod.mk.injEq] at heq
        rw [List.length_cons, List.length_append, ← heq.2, hm]

end Parse

theorem attempt_run_some {m : Parse (Option α)} {a : α} {q : Parser} (h : m.run p = (.ok (some a), q)) :
    (attempt m).run p = (.ok (some a), q) := by
  rw [Routine.run] at h
  rw [Routine.run, attempt, Routine.run, h]

/-- The attempt passes the tokens that the lookahead counts, or none. -/
theorem attempt_lambdaParameters (hp : p.last.isEnd = true) :
    (attempt lambdaParameters).run p = (match lambdaHead? p.ahead with
      | some (params, n) => do
        skip n
        return some params
      | none => return none : Parse (Option (List Token))).run p := by
  obtain ⟨front, rest, hts, hfront, hreads, hcount⟩ := reads_lambdaParameters p.table hp p.ahead
  obtain ⟨passed, ahead, last, table⟩ := p
  obtain rfl : ahead = front ++ rest := hts
  have hrun := hreads passed
  cases hhead : lambdaHead? (front ++ rest) with
  | none =>
    rw [hhead] at hrun
    have hreached : Parser.Reaches ⟨passed, front ++ rest, last, table⟩ front
        ⟨front.reverse ++ passed, rest, last, table⟩ := ⟨rfl, rfl, rfl, .append hfront rest⟩
    exact (attempt_run_none hrun).trans (congrArg (Prod.mk _) hreached.rewound)
  | some head =>
    obtain ⟨params, n⟩ := head
    rw [hhead] at hrun
    have hskip : Reads (skip n) table last front rest () := .skip (hcount params n hhead).symm hfront
    rw [attempt_run_some hrun, run_bind_ok (hskip passed)]
    rfl

/-- A parenthesis is read as if the parameters had been tried. -/
theorem parenthesisedByTrial_run (nested : Parse Expr) (hp : p.last.isEnd = true) :
    (parenthesisedByTrial nested).run p = (parenthesised nested).run p := by
  rw [parenthesised, run_bind_ok (run_state p), parenthesisedByTrial,
    run_bind_congr (attempt_lambdaParameters hp)]
  cases lambdaHead? p.ahead with
  | none => rfl
  | some head =>
    obtain ⟨params, n⟩ := head
    simp only [bind_bind]
    rfl

end EventRules
