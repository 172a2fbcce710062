import EventRules.Proofs.Rule.Followers

/-!
# The shorthand in place of its arrow

Statements follow each other as expressions do, and so do whole texts: what parses with an arrow of
equality stages parses with the shorthand in its place, and as the same tree up to places. This holds
wherever an operand can begin, unless the commas of the shorthand mislead the lookahead that takes a
parenthesis with one comma for a range.
-/

namespace EventRules
set_option autoImplicit false

open Token Routine Parse

namespace Respelling

variable {w : Respelling} {nested nested' : Parse Statement} {p q : Parser}

/-- What is known of the parsers of statements inside blocks. -/
def NestedStatement (w : Respelling) (nested nested' : Parse Statement) : Prop :=
  ∀ p q, w.Beside p q → opensArguments p.passed = false →
    w.Follows w.Stuck 0 (fun s s' _ => s.unplaced = s'.unplaced) nested nested' p q

theorem keyword_opens_nothing {t : Token} {word : String} (h : t.isKeyword word = true)
    (hword : word ≠ "if") (ts : List Token) : opensArguments (t :: ts) = false := by
  obtain ⟨hk, ht⟩ := keyword_of_isKeyword h
  simp [opensArguments, isName, isKeyword, isOperator, hk, ht, hword]

theorem semicolons_follow (h : w.Beside p q) (hp : p.current.isOperator ";" = true) :
    w.Follows Never 2 (fun ts us p' => ts ≠ [] ∧ us ≠ [] ∧ opensArguments p'.passed = false)
      (many (·.isOperator ";") advance) (many (·.isOperator ";") advance) p q := by
  have hsemicolon : Blind (·.isOperator ";") := blind_operator (by decide)
  have hpass : ∀ p q, w.Beside p q → p.current.isOperator ";" = true → p.current.Alike q.current →
      w.Follows Never 2 (fun _ _ p' => True ∧ opensArguments p'.passed = false) advance advance p q := by
    intro p q h hp ha
    have hend := not_end_of_operator (operator_of_isOperator hp).1
    refine (Follows.pass h ha hend).weaken (fun _ h => h)
      (Nat.le_of_eq (size_of_other_operator hp (by decide)).symm) fun t u p' ht => ⟨trivial, ?_⟩
    rw [ht.passed, ht.current]
    exact opens_nothing_behind_operator hp (by decide) _
  exact Follows.many_first (fun p => opensArguments p.passed = false) (fun _ h => False.elim h) hsemicolon
    (fun _ ht => (operator_of_isOperator ht).1) (fun p q h _ hp ha => hpass p q h hp ha) h hp
    (hpass p q h hp (h.alike_of_test hsemicolon hp))

theorem statementsUpTo_follow {stop : Token → Bool} (hstop : Blind stop)
    (hn : w.NestedStatement nested nested') {rounds rounds' : Nat} (h : w.Beside p q)
    (hback : opensArguments p.passed = false) (hp : total p.ahead + 2 ≤ 2 * rounds)
    (hq : total q.ahead + 2 ≤ 2 * rounds') :
    w.Follows w.Stuck 0 (fun ss ss' _ => ss.map Statement.unplaced = ss'.map Statement.unplaced)
      (statementsUpTo stop nested rounds) (statementsUpTo stop nested' rounds') p q := by
  have hsemicolon : Blind (·.isOperator ";") := blind_operator (by decide)
  induction rounds generalizing rounds' p q with
  | zero => omega
  | succ rounds ih =>
    obtain ⟨rounds', rfl⟩ : ∃ k, rounds' = k + 1 := ⟨rounds' - 1, by omega⟩
    refine Follows.current_bind ?_
    rw [← h.agree hstop, ← h.agree blind_end]
    cases stop p.current || p.current.isEnd with
    | true => exact Follows.pure h rfl
    | false =>
      simp only [Bool.false_eq_true, if_false]
      refine (hn p q h hback).bind_reached (n := 0) (fun s s' p₁ q₁ h₁ hs => ?_) fun s p₁ hstuck => ?_
      · have hleft₁ := h₁.left
        have hright₁ := h₁.right
        cases hnext : p₁.current.isOperator ";" with
        | false =>
          have hnext' := (h₁.beside.agree hsemicolon).symm.trans hnext
          have hpure : w.Follows w.Stuck 0 (fun ss ss' _ => ss.map Statement.unplaced =
              ss'.map Statement.unplaced) (pure [s]) (pure [s']) p₁ q₁ :=
            Follows.pure h₁.beside (by rw [List.map_cons, List.map_cons, hs])
          exact hpure.elsewhere (run_bind_ok (many_none hnext) _) (run_bind_ok (many_none hnext') _)
            (Nat.le_refl _) (Nat.le_refl _)
        | true =>
          refine Follows.at_least ?_ (Nat.zero_le 2)
          refine (semicolons_follow h₁.beside hnext).bind_reached (n := 0)
            (fun ts us p₂ q₂ h₂ hts => ?_) fun _ _ h => False.elim h
          have hleft₂ := h₂.left
          have hright₂ := h₂.right
          obtain ⟨hts, hus, hback₂⟩ := hts
          have hts : ts.isEmpty = false := by simpa using hts
          have hus : us.isEmpty = false := by simpa using hus
          simp only [hts, hus, Bool.false_eq_true, if_false]
          have hfuel : total p₂.ahead + 2 ≤ 2 * rounds := by omega
          have hfuel' : total q₂.ahead + 2 ≤ 2 * rounds' := by omega
          refine (ih h₂.beside hback₂ hfuel hfuel').bind_stuck (n := 0)
            (fun ss ss' p₃ q₃ h₃ hss => Follows.pure h₃ ?_) fun _ => Stalls.pure _
          rw [List.map_cons, List.map_cons, hs, hss]
      · have hstays : w.Stalls w.Stuck (do
            let separators ← many (·.isOperator ";") advance
            if separators.isEmpty then return [s]
            let ss ← statementsUpTo stop nested rounds
            return s :: ss) :=
          Stalls.bind_unmoved (fun p h => many_none (h.fails hsemicolon)) (Stalls.pure _)
        exact hstays p₁ hstuck

theorem statements_follow {stop : Token → Bool} (hstop : Blind stop)
    (hn : w.NestedStatement nested nested') (h : w.Beside p q) (hback : opensArguments p.passed = false) :
    w.Follows w.Stuck 0 (fun ss ss' _ => ss.map Statement.unplaced = ss'.map Statement.unplaced)
      (statements stop nested) (statements stop nested') p q := by
  have hleft := total_le p.ahead
  have hright := total_le q.ahead
  exact Follows.state_bind (statementsUpTo_follow hstop hn h hback (by omega) (by omega))

/-- A block stands behind a token that no operand can stand behind. -/
theorem block_follows (hn : w.NestedStatement nested nested') (h : w.Beside p q)
    (hbars : barsOperand p.passed = true) :
    w.Follows Never 0 (fun ss ss' _ => ss.map Statement.unplaced = ss'.map Statement.unplaced)
      (block nested) (block nested') p q := by
  have hclosing : Blind (·.isBracket "\x7d") := blind_bracket (by decide)
  refine (brace_follows h (h.alike_of_bars hbars)).bind_never (n := 0) fun opening opening' p₁ q₁ h₁ hopening => ?_
  have hback : opensArguments p₁.passed = false := by
    rw [hopening.passed]
    exact opens_nothing_behind_bracket hopening.holds _
  refine (statements_follow hclosing hn h₁ hback).bind_stuck (n := 0)
    (fun body body' p₂ q₂ h₂ hbody => ?_) fun _ => Stalls.token_bind (takes_closing _ _) hclosing
  exact (Follows.closing h₂ (by decide)).bind_never (n := 0) fun _ _ p₃ q₃ h₃ _ => Follows.pure h₃ hbody

theorem branch_follows (hn : w.NestedStatement nested nested') (h : w.Beside p q)
    (hp : p.current.isKeyword "if" = true) :
    w.Follows w.Stuck 0 (fun s s' _ => s.unplaced = s'.unplaced) (branch nested) (branch nested')
      p q := by
  have ha := h.alike_of_test (blind_keyword "if") hp
  have hpass := Follows.pass h ha (not_end_of_keyword hp)
  refine (hpass.bind_never (n := 0) fun _ _ p₁ q₁ h₁ _ => ?_).at_least (Nat.zero_le _)
  refine (Follows.bracket h₁ (by decide)).bind_never (n := 0) fun opening opening' p₂ q₂ h₂ hopening => ?_
  have hback : opensArguments p₂.passed = false := by
    rw [hopening.passed]
    exact opens_nothing_behind_bracket hopening.holds _
  have hcondition : w.Follows w.Stuck 1 (fun e e' _ => e.unplaced = e'.unplaced)
      (withTable .standard expression) (withTable .standard expression) p₂ q₂ :=
    Follows.withTable h₂ fun p' q' h' hpassed => expression_follows h' (hpassed ▸ hback)
  refine Follows.at_least ?_ (Nat.zero_le 1)
  refine hcondition.bind_stuck (n := 0) (fun condition condition' p₃ q₃ h₃ hcondition => ?_)
    fun _ => Stalls.token_bind (takes_closing _ _) (blind_bracket (by decide))
  refine (Follows.closing h₃ (by decide)).bind_never (n := 0) fun c _ p₄ q₄ h₄ hc => ?_
  have hbars : barsOperand p₄.passed = true := by
    rw [hc.passed]
    simp [barsOperand, hc.holds]
  refine (block_follows hn h₄ hbars).bind_never (n := 0) fun taken taken' p₅ q₅ h₅ htaken => ?_
  refine Follows.sees_bind h₅ (blind_keyword "else") (fun helse => ?_) fun _ => ?_
  · have hfinish : ∀ {other other' : Statement} {p q : Parser}, w.Beside p q →
        other.unplaced = other'.unplaced →
        w.Follows w.Stuck 0 (fun (s s' : Statement) _ => s.unplaced = s'.unplaced)
          (pure (Statement.branch condition taken (some other)))
          (pure (Statement.branch condition' taken' (some other'))) p q := by
      intro other other' p q h hother
      refine Follows.pure h ?_
      rw [Statement.unplaced_branch, Statement.unplaced_branch, hcondition, htaken, Option.map_some,
        Option.map_some, hother]
    have ha₅ := h₅.alike_of_test (blind_keyword "else") helse
    have hpass := Follows.pass h₅ ha₅ (not_end_of_keyword helse)
    refine (hpass.bind_never (n := 0) fun t _ p₆ q₆ h₆ ht => ?_).at_least (Nat.zero_le _)
    have hbars : barsOperand p₆.passed = true := by
      rw [ht.passed, ht.current]
      simp [barsOperand, helse]
    have hback : opensArguments p₆.passed = false := by
      rw [ht.passed, ht.current]
      exact keyword_opens_nothing helse (by decide) _
    refine Follows.sees_bind h₆ (blind_keyword "if") (fun _ => ?_) fun _ => ?_
    · exact (hn p₆ q₆ h₆ hback).bind_stuck (n := 0) (fun _ _ p₇ q₇ h₇ hother => hfinish h₇ hother)
        fun _ => Stalls.pure _
    · have hother : w.Follows Never 0 (fun s s' _ => s.unplaced = s'.unplaced)
          (Statement.block <$> block nested) (Statement.block <$> block nested') p₆ q₆ :=
        (block_follows hn h₆ hbars).map fun body body' _ hbody => by
          rw [Statement.unplaced, Statement.unplaced, Statement.unplacedAll_eq_map, Statement.unplacedAll_eq_map,
            hbody]
      exact hother.bind_never (n := 0) fun _ _ p₇ q₇ h₇ hother => hfinish h₇ hother
  · refine Follows.pure h₅ ?_
    rw [Statement.unplaced_branch, Statement.unplaced_branch, hcondition, htaken]

/-- Statements that end with an expression. -/
theorem ending_follows {f f' : Expr → Statement} (h : w.Beside p q)
    (hback : opensArguments p.passed = false)
    (hf : ∀ e e' : Expr, e.unplaced = e'.unplaced → (f e).unplaced = (f' e').unplaced) :
    w.Follows w.Stuck 0 (fun s s' _ => s.unplaced = s'.unplaced) (do return f (← expression))
      (do return f' (← expression)) p q := by
  refine Follows.at_least ?_ (Nat.zero_le 1)
  exact (expression_follows h hback).bind_stuck (n := 0)
    (fun e e' p₁ q₁ h₁ he => Follows.pure h₁ (hf e e' he)) fun _ => Stalls.pure _

theorem assigns_agree (h : w.Beside p q) :
    (p.current.isName && (p.peek 1).isOperator "=") =
      (q.current.isName && (q.peek 1).isOperator "=") := by
  have hagree := h.agree blind_name
  cases hname : p.current.isName with
  | false => rw [← hagree, hname, Bool.false_and, Bool.false_and]
  | true =>
    have hequals : Blind (·.isOperator "=") := blind_operator (by decide)
    rw [← hagree, hname,
      h.agree_next hequals (h.alike_of_test blind_name hname) (not_end_of_name hname)]

theorem keyword_agree (h : w.Beside p q) : p.current.kind = .keyword ↔ q.current.kind = .keyword := by
  rcases h.facing_or_alike with hfacing | ha
  · rw [(bracket_of_isBracket hfacing.current_left).1,
      (operator_of_isOperator hfacing.current_right).1]
    decide
  · rw [ha.kind]

theorem statement_follows (hn : w.NestedStatement nested nested') :
    w.NestedStatement (statement nested) (statement nested') := by
  intro p q h hback
  refine Follows.state_bind ?_
  simp only [← h.agree (blind_keyword "let"), ← h.agree (blind_keyword "if"),
    ← h.agree (blind_keyword "return"), ← assigns_agree h, ← keyword_agree h]
  cases hlet : p.current.isKeyword "let" with
  | true =>
    have hpass := Follows.pass h (h.alike_of_test (blind_keyword "let") hlet) (not_end_of_keyword hlet)
    refine (hpass.bind_never (n := 0) fun _ _ p₁ q₁ h₁ _ => ?_).at_least (Nat.zero_le _)
    have hname : w.Follows Never 0 (Took isName p₁) expectName expectName p₁ q₁ :=
      Follows.token h₁ (takes_expected _ _) (takes_expected _ _) blind_name fun _ => not_end_of_name
    refine hname.bind_never (n := 0) fun name name' p₂ q₂ h₂ hname => ?_
    refine (Follows.operator h₂ (by decide)).bind_never (n := 0) fun _ _ p₃ q₃ h₃ ht => ?_
    have hback : opensArguments p₃.passed = false := by
      rw [ht.passed]
      exact opens_nothing_behind_operator ht.holds (by decide) _
    refine ending_follows h₃ hback fun e e' he => ?_
    rw [Statement.unplaced, Statement.unplaced, hname.alike.unplaced, he]
  | false =>
  cases hif : p.current.isKeyword "if" with
  | true => exact branch_follows hn h hif
  | false =>
  cases hreturn : p.current.isKeyword "return" with
  | true =>
    have hpass := Follows.pass h (h.alike_of_test (blind_keyword "return") hreturn)
      (not_end_of_keyword hreturn)
    refine (hpass.bind_never (n := 0) fun _ _ p₁ q₁ h₁ ht => ?_).at_least (Nat.zero_le _)
    have hback : opensArguments p₁.passed = false := by
      rw [ht.passed, ht.current]
      exact keyword_opens_nothing hreturn (by decide) _
    refine ending_follows h₁ hback fun e e' he => ?_
    rw [Statement.unplaced, Statement.unplaced, he]
  | false =>
  cases hassign : p.current.isName && (p.peek 1).isOperator "=" with
  | true =>
    obtain ⟨hname, hequals⟩ := Bool.and_eq_true_iff.mp hassign
    have ha := h.alike_of_test blind_name hname
    have hend := not_end_of_name hname
    refine ((Follows.pass h ha hend).bind_never (n := 0) fun name name' p₁ q₁ h₁ ht => ?_).at_least
      (Nat.zero_le _)
    rw [peek_behind h.ended hend, ← ht.advanced] at hequals
    have ha₁ := h₁.alike_of_test (blind_operator (by decide)) hequals
    have hpass := Follows.pass h₁ ha₁ (not_end_of_operator (operator_of_isOperator hequals).1)
    refine (hpass.bind_never (n := 0) fun _ _ p₂ q₂ h₂ ht₂ => ?_).at_least (Nat.zero_le _)
    have hback : opensArguments p₂.passed = false := by
      rw [ht₂.passed, ht₂.current]
      exact opens_nothing_behind_operator hequals (by decide) _
    refine ending_follows h₂ hback fun e e' he => ?_
    rw [Statement.unplaced, Statement.unplaced, ht.alike.unplaced, he]
  | false =>
    by_cases hk : p.current.kind = .keyword
    · simp only [hk]
      exact Follows.of_error rfl
    · simp only [hk, if_false]
      refine ending_follows h hback fun e e' he => ?_
      rw [Statement.unplaced, Statement.unplaced, he]

/-- Deeper statements may be read in front of the shorthand. -/
theorem nestedStatement_follows (w : Respelling) {depth depth' : Nat} (h : depth ≤ depth') :
    w.NestedStatement (nestedStatement depth) (nestedStatement depth') := by
  induction depth generalizing depth' with
  | zero => exact fun p q _ _ => Follows.of_error rfl
  | succ depth ih =>
    obtain ⟨depth', rfl⟩ : ∃ d, depth' = d + 1 := ⟨depth' - 1, by omega⟩
    exact statement_follows (ih (by omega))

/-! ### Whole texts -/

theorem end_follows {α β : Type} {R : α → β → Parser → Prop} {a : α} {b : β} (h : w.Beside p q)
    (hR : R a b p) :
    w.Follows Never 0 R (do expectEnd; return a) (do expectEnd; return b) p q := by
  have hend : w.Follows Never 0 (fun _ _ p' => p' = p) expectEnd expectEnd p q :=
    Follows.sees_bind h blind_end (fun _ => Follows.pure h rfl) fun _ => Follows.of_error rfl
  exact hend.bind_never (n := 0) fun _ _ p' q' h' hp => Follows.pure h' (hp ▸ hR)

theorem end_stalls {α : Type} (a : α) : w.Stalls Never (do expectEnd; return a : Parse α) := by
  intro p h b p' hrun
  obtain ⟨_, p₁, hend, -⟩ := bind_ok hrun
  have hend : Routine.run (if p.current.isEnd = true then return () else unexpected .endOfInput) p =
      (.ok (), p₁) := hend
  rw [if_neg (ne_true_of_eq_false (h.fails blind_end))] at hend
  cases hend

theorem whole_follows (h : w.Beside p q) (hback : opensArguments p.passed = false) :
    w.Follows Never 0 (fun e e' _ => e.unplaced = e'.unplaced) whole whole p q := by
  refine Follows.at_least ?_ (Nat.zero_le 1)
  exact (expression_follows h hback).bind_stuck (n := 0) (fun e e' p₁ q₁ h₁ he => end_follows h₁ he)
    fun e => end_stalls e

theorem program_follows (h : w.Beside p q) (hback : opensArguments p.passed = false) :
    w.Follows Never 0 (fun ss ss' _ => ss.map Statement.unplaced = ss'.map Statement.unplaced) program
      program p q := by
  refine Follows.state_bind ?_
  have hweight := h.weight_le
  have hn := nestedStatement_follows w (Nat.succ_le_succ hweight)
  exact (statements_follow blind_end hn h hback).bind_stuck (n := 0)
    (fun ss ss' p₁ q₁ h₁ hss => end_follows h₁ hss) fun ss => end_stalls ss

end Respelling

namespace Parser

theorem endBehind_alike (ts us : List Token) : (endBehind ts).Alike (endBehind us) := by
  have hkind : ∀ ts, (endBehind ts).kind = .endOfInput ∧ (endBehind ts).text = "" := by
    intro ts
    rw [endBehind]
    split <;> exact ⟨rfl, rfl⟩
  refine ⟨(hkind ts).1.trans (hkind us).1.symm, (hkind ts).2.trans (hkind us).2.symm, ?_⟩
  rintro (h | h)
  · simp [isName, (hkind ts).1] at h
  · simp [isOperator, (hkind ts).1] at h

end Parser

/-- An end token closes no group. -/
theorem endsWithOneComma_end {t : Token} (ht : t.isEnd = true) (ts : List Token)
    (depth commas : Nat) : endsWithOneComma (ts ++ [t]) depth commas = endsWithOneComma ts depth commas := by
  have hk : t.kind = .endOfInput := by simpa [isEnd] using ht
  induction ts generalizing depth commas with
  | nil => simp [endsWithOneComma, hk]
  | cons u us ih => simp only [List.cons_append, endsWithOneComma, ih]

theorem startsRange_end {t : Token} (ht : t.isEnd = true) (ts : List Token) :
    startsRange (ts ++ [t]) = startsRange ts := endsWithOneComma_end ht ts 0 0

/-- What parses with the one spelling parses with the other one too, as the same tree up to places. -/
structure Interchangeable (front long short behind : List Token) : Prop where
  expression : ∀ e, parseExpression (front ++ long ++ behind) = .ok e →
    ∃ e', parseExpression (front ++ short ++ behind) = .ok e' ∧ e'.unplaced = e.unplaced
  program : ∀ body, parseProgram (front ++ long ++ behind) = .ok body →
    ∃ body', parseProgram (front ++ short ++ behind) = .ok body' ∧
      body'.map Statement.unplaced = body.map Statement.unplaced

theorem ok_of_isOk {ε α : Type} {r : Except ε α} (h : r.isOk = true) : ∃ a, r = .ok a := by
  cases r with
  | ok a => exact ⟨a, rfl⟩
  | error e => cases h

namespace Interchangeable

variable {front long short behind : List Token}

theorem expression_ok (h : Interchangeable front long short behind)
    (hlong : (parseExpression (front ++ long ++ behind)).isOk = true) :
    (parseExpression (front ++ short ++ behind)).isOk = true := by
  obtain ⟨e, he⟩ := ok_of_isOk hlong
  obtain ⟨e', he', -⟩ := h.expression e he
  rw [he']
  rfl

theorem program_ok (h : Interchangeable front long short behind)
    (hlong : (parseProgram (front ++ long ++ behind)).isOk = true) :
    (parseProgram (front ++ short ++ behind)).isOk = true := by
  obtain ⟨body, hbody⟩ := ok_of_isOk hlong
  obtain ⟨body', hbody', -⟩ := h.program body hbody
  rw [hbody']
  rfl

end Interchangeable

namespace Respelling

variable {front long short behind : List Token} {last last' : Token}

/-- At the start of the texts the parsers are beside each other. -/
theorem beside_start (w : Respelling) (hfits : w.Fits [] front) (hlast : last.isEnd = true)
    (halike : last.Alike last') :
    w.Beside ⟨[], front ++ w.long ++ w.behind, last, .standard⟩
      ⟨[], front ++ w.short ++ w.behind, last', .standard⟩ := by
  refine ⟨rfl, hlast, halike, Or.inl ⟨front, hfits, ?_, ?_⟩⟩
  · rw [full, List.append_assoc]
  · rw [brief, List.append_assoc]

theorem interchangeable_of_beside {w : Respelling}
    (h : w.Beside (Parser.ofTokens (front ++ long ++ behind) .standard)
      (Parser.ofTokens (front ++ short ++ behind) .standard)) :
    Interchangeable front long short behind := by
  have hback : opensArguments (Parser.ofTokens (front ++ long ++ behind) .standard).passed = false := by
    rw [Parser.ofTokens]
    split
    · split <;> rfl
    · rfl
  refine ⟨fun e he => ?_, fun body hbody => ?_⟩
  · obtain ⟨e', he', hsame⟩ := (whole_follows h hback).answer he
    exact ⟨e', he', hsame.symm⟩
  · obtain ⟨body', hbody', hsame⟩ := (program_follows h hback).answer hbody
    exact ⟨body', hbody', hsame.symm⟩

end Respelling

/-- A shorthand may stand in the place of its arrow where an operand can begin: not directly behind
`)` or `else`, where a brace opens a block, and not behind the `->` between two stages. Its commas may
mislead the search for ranges; where they do not, that is, where every parenthesis before it that
does not open arguments or a condition is or is not a range in both spellings, whatever parses with the arrow
parses with the shorthand. -/
theorem shorthand_interchangeable {values long short front behind : List Token} (hne : values ≠ [])
    (hvalues : ∀ v ∈ values, v.isShorthandValue = true) (hlong : Spells (arrowMarks values) long)
    (hshort : Spells (shorthandMarks values) short) (hoperand : barsOperand front.reverse = false)
    (hranges : ∀ before opening after, front = before ++ opening :: after →
      opening.isBracket "(" = true → opensArguments before.reverse = false →
        startsRange (opening :: after ++ long ++ behind) =
          startsRange (opening :: after ++ short ++ behind)) :
    Interchangeable front long short behind := by
  -- an end token behind the text is no token of it
  have hfits : ∀ rest, (∀ ts, startsRange (ts ++ behind) = startsRange (ts ++ rest)) →
      (⟨values, long, short, rest, hne, hvalues, hlong, hshort⟩ : Respelling).Fits [] front := by
    intro rest hrest
    refine ⟨by rwa [List.append_nil], fun before opening after hfront ho hback => ?_⟩
    rw [List.append_nil] at hback
    have hagree := hranges before opening after hfront ho hback
    rw [hrest, hrest] at hagree
    rwa [Respelling.full, Respelling.brief, ← List.append_assoc, ← List.append_assoc]
  have hopen : ∀ {ls ss : List Token} {l s : Token}, front ++ long ++ behind = ls ++ [l] →
      front ++ short ++ behind = ss ++ [s] → l.isEnd = false → s.isEnd = false →
        Interchangeable front long short behind := by
    intro ls ss l s hls hss hl hs
    have hbeside := Respelling.beside_start _ (hfits behind fun _ => rfl)
      (Parser.endBehind_isEnd (front ++ long ++ behind)) (Parser.endBehind_alike _ (front ++ short ++ behind))
    rw [← Parser.ofTokens_open hls hl, ← Parser.ofTokens_open hss hs] at hbeside
    exact Respelling.interchangeable_of_beside hbeside
  rcases List.eq_nil_or_concat behind with hbehind | ⟨rest, t, hbehind⟩
  · obtain ⟨ls, l, hls, hl⟩ := arrow_ends hne hlong
    obtain ⟨ss, s, hss, hs⟩ := shorthand_ends hshort
    have hlast : front ++ long ++ behind = front ++ ls ++ [l] := by simp [hbehind, hls]
    have hlast' : front ++ short ++ behind = front ++ ss ++ [s] := by simp [hbehind, hss]
    exact hopen hlast hlast' hl.not_end hs.not_end
  · have hlast : ∀ ts, ts ++ behind = ts ++ rest ++ [t] := by
      intro ts
      rw [hbehind, List.concat_eq_append, List.append_assoc]
    cases ht : t.isEnd with
    | false => exact hopen (hlast _) (hlast _) ht ht
    | true =>
      have hrest : ∀ ts, startsRange (ts ++ behind) = startsRange (ts ++ rest) := by
        intro ts
        rw [hlast, startsRange_end ht]
      have hbeside := Respelling.beside_start _ (hfits rest hrest) ht (.refl t)
      rw [← Parser.ofTokens_ended ht, ← Parser.ofTokens_ended ht, ← hlast, ← hlast] at hbeside
      exact Respelling.interchangeable_of_beside hbeside

/-- A shorthand among the arguments of a call in parentheses: `(f(<1,2>)&&x)`. -/
theorem shorthand_interchangeable_in_call :
    let one : Token := ⟨.integer, "1", .nowhere⟩
    let two : Token := ⟨.integer, "2", .nowhere⟩
    let front := [Mark.br "(", .sign .name "f", .br "("].map Mark.token
    let long := (arrowMarks [one, two]).map Mark.token
    let short := (shorthandMarks [one, two]).map Mark.token
    let behind := [Mark.br ")", .op "&&", .sign .name "x", .br ")"].map Mark.token
    Interchangeable front long short behind ∧
      (parseExpression (front ++ long ++ behind)).isOk = true := by
  intro one two front long short behind
  have hvalues : ∀ v ∈ [one, two], v.isShorthandValue = true := by decide
  have hranges : ∀ before opening after, front = before ++ opening :: after →
      opening.isBracket "(" = true → opensArguments before.reverse = false →
        startsRange (opening :: after ++ long ++ behind) =
          startsRange (opening :: after ++ short ++ behind) := by
    intro before opening after hfront ho hback
    match before with
    | [] =>
      obtain ⟨rfl, rfl⟩ := List.cons_eq_cons.mp hfront
      decide
    | [_] =>
      obtain ⟨-, hfront⟩ := List.cons_eq_cons.mp hfront
      obtain ⟨rfl, -⟩ := List.cons_eq_cons.mp hfront
      cases ho
    | [_, _] =>
      obtain ⟨-, hfront⟩ := List.cons_eq_cons.mp hfront
      obtain ⟨rfl, -⟩ := List.cons_eq_cons.mp hfront
      cases hback
    | _ :: _ :: _ :: before =>
      have hlength := congrArg List.length hfront
      simp [front] at hlength
  refine ⟨?_, by decide +kernel⟩
  exact shorthand_interchangeable (List.cons_ne_nil _ _) hvalues (Spells.tokens _) (Spells.tokens _)
    (by decide) hranges

/-- In other places the spellings differ: behind the `->` of an arrow, which joins a stage in braces to it,
and behind the condition of a statement, where a brace opens a block. -/
theorem shorthand_not_interchangeable :
    let one : Token := ⟨.integer, "1", .nowhere⟩
    let two : Token := ⟨.integer, "2", .nowhere⟩
    let long := (arrowMarks [two]).map Mark.token
    let short := (shorthandMarks [two]).map Mark.token
    let stage := (arrowMarks [one] ++ [Mark.op "->"]).map Mark.token
    let condition := [Mark.sign .keyword "if", .br "(", .sign .boolean "true", .br ")"].map Mark.token
    two.isShorthandValue = true ∧ Spells (arrowMarks [two]) long ∧ Spells (shorthandMarks [two]) short ∧
      ¬ Interchangeable stage long short [] ∧ ¬ Interchangeable condition long short [] := by
  intro one two long short stage condition
  refine ⟨by decide, Spells.tokens _, Spells.tokens _, fun h => ?_, fun h => ?_⟩
  · have hok := h.expression_ok (by decide +kernel)
    revert hok
    decide +kernel
  · have hok := h.program_ok (by decide +kernel)
    revert hok
    decide +kernel

end EventRules
