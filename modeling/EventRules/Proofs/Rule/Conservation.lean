import EventRules.Proofs.Rule.Interchange
import EventRules.Proofs.Rule.Operands

/-!
# Operands are conserved

Statements walk over their tokens as expressions do. A text that is accepted has been passed up to its
end, so the operands of its tree, or of its program, are the names and literals among its tokens, each
once and in their order (`operands_conserved`).
-/

namespace EventRules
set_option autoImplicit false

open Token Routine Parse Respelling

variable {nested nested' : Parse Statement} {d : Nat} {p : Parser} {ts : List Token}

/-- The steps for statements inside blocks walk where the depth suffices. -/
def NestedStatementWalks (d : Nat) (nested nested' : Parse Statement) : Prop :=
  ∀ p : Parser, p.Within d → Walks (Keeps Statement.atoms 0) nested nested' p

theorem atoms_of_keyword {word : String} (h : p.current.isKeyword word = true) :
    Token.atoms [p.current] = [] :=
  atoms_of_other (no_atom_of_keyword h) []

theorem atoms_of_name (h : p.current.isName = true) : Token.atoms [p.current] = [p.current] :=
  atoms_of_atom (atom_of_name h) []

theorem separator_walks (q : Parser) (hq : q.Within d) (hsemicolon : q.current.isOperator ";" = true) :
    Walks (Keeps (fun _ : Token => []) 2) advance advance q := by
  have hk := (operator_of_isOperator hsemicolon).1
  refine (Walks.token takes_any hq.ended fun _ => not_end_of_operator hk).weaken fun t ts ht => ?_
  obtain ⟨rfl, rfl, -⟩ := ht
  refine ⟨(atoms_of_operator hsemicolon).symm, ?_⟩
  exact Nat.le_of_eq (size_of_other_operator hsemicolon (by decide)).symm

theorem statementsUpTo_walk {stop : Token → Bool} (hn : NestedStatementWalks d nested nested')
    {rounds rounds' : Nat} (h : p.Within d) (hleft : total p.ahead + 2 ≤ 2 * rounds)
    (hright : total p.ahead + 2 ≤ 2 * rounds') :
    Walks (Keeps (List.flatMap Statement.atoms) 0) (statementsUpTo stop nested rounds)
      (statementsUpTo stop nested' rounds') p := by
  induction rounds generalizing rounds' p with
  | zero => omega
  | succ rounds ih =>
    obtain ⟨rounds', rfl⟩ : ∃ k, rounds' = k + 1 := ⟨rounds' - 1, by omega⟩
    refine Walks.current_bind ?_
    cases stop p.current || p.current.isEnd with
    | true => exact .pure ⟨rfl, Nat.zero_le _⟩
    | false =>
      simp only [Bool.false_eq_true, if_false]
      refine (hn p h).bind fun s p₁ us hus hs => ?_
      have h₁ := h.after hus
      have hle₁ := hus.total_le
      refine (Walks.many (fun t ht => (operator_of_isOperator ht).1) separator_walks h₁).bind
        fun separators p₂ vs hvs hseparators => ?_
      have hnone : Token.atoms vs = [] := by
        rw [← hseparators.atoms]
        exact List.flatMap_eq_nil_iff.mpr fun _ _ => rfl
      have hsize := hseparators.total_ge
      have hle₂ := hvs.total_le
      cases hempty : separators.isEmpty with
      | true =>
        simp only [if_true]
        refine .pure ⟨?_, Nat.zero_le _⟩
        simp only [List.flatMap_cons, List.flatMap_nil, hs.atoms, atoms_append, hnone, List.append_nil]
      | false =>
        have hsome : 1 ≤ separators.length := List.length_pos_iff.mpr (by simpa using hempty)
        simp only [Bool.false_eq_true, if_false]
        refine (ih (h₁.after hvs) (by omega) (by omega)).bind fun ss p₃ ws _ hss =>
          .pure ⟨?_, Nat.zero_le _⟩
        simp only [List.flatMap_cons, hs.atoms, hss.atoms, atoms_append, hnone, List.append_nil,
          List.nil_append]

theorem statements_walk {stop : Token → Bool} (hn : NestedStatementWalks d nested nested')
    (h : p.Within d) :
    Walks (Keeps (List.flatMap Statement.atoms) 0) (statements stop nested) (statements stop nested')
      p := by
  have hle := total_le p.ahead
  exact .state_bind (statementsUpTo_walk hn h (by omega) (by omega))

theorem block_walks (hn : NestedStatementWalks d nested nested') (h : p.Within (d + 1)) :
    Walks (Keeps (List.flatMap Statement.atoms) 0) (block nested) (block nested') p := by
  refine Walks.bracket "\x7b" h.ended fun p₁ hts₁ ho => ?_
  have h₁ := h.behind hts₁
  refine (statements_walk hn h₁).bind fun body p₂ us hus hbody => ?_
  refine Walks.closing _ (h₁.after hus).ended (fun t ht => (bracket_of_isBracket ht).1)
    fun p₃ _ hc => .pure ⟨?_, Nat.zero_le _⟩
  simp only [atoms_append, atoms_of_bracket (bracket_of_isBracket ho).1, atoms_of_bracket hc,
    hbody.atoms, List.nil_append, List.append_nil]

theorem branch_walks (hn : NestedStatementWalks d nested nested') (h : p.Within (d + 1))
    (hif : p.current.isKeyword "if" = true) :
    Walks (Keeps Statement.atoms 0) (branch nested) (branch nested') p := by
  refine Walks.pass h.ended (not_end_of_keyword hif) fun p₁ hts₁ => ?_
  have h₁ := h.behind hts₁
  refine Walks.bracket "(" h₁.ended fun p₂ hts₂ ho => ?_
  have h₂ := h₁.after hts₂
  refine (Walks.withTable (expression_walks h₂.same.ended)).bind fun condition p₃ us hus hcondition => ?_
  have h₃ := h₂.after hus
  refine Walks.closing _ h₃.ended (fun t ht => (bracket_of_isBracket ht).1) fun p₄ hts₄ hc => ?_
  have h₄ := h₃.after hts₄
  refine (block_walks hn h₄.deeper).bind fun taken p₅ vs hvs htaken => ?_
  have h₅ := h₄.after hvs
  have hfront : ∀ ws, Token.atoms ([p.current] ++ ([p₁.current] ++ (us ++ ([p₃.current] ++ (vs ++ ws))))) =
      condition.atoms ++ (taken.flatMap Statement.atoms ++ Token.atoms ws) := by
    intro ws
    simp only [atoms_append, atoms_of_keyword hif, atoms_of_bracket (bracket_of_isBracket ho).1,
      atoms_of_bracket hc, hcondition.atoms, htaken.atoms, List.nil_append]
  refine Walks.sees_bind (fun helse => ?_) fun _ => .pure ⟨?_, Nat.zero_le _⟩
  · have hfinish : ∀ {other : Statement} {q : Parser} {ws : List Token}, Keeps Statement.atoms 0 other ws →
        Walks (fun s xs => Keeps Statement.atoms 0 s
            ([p.current] ++ ([p₁.current] ++ (us ++ ([p₃.current] ++ (vs ++ ([p₅.current] ++ (ws ++ xs))))))))
          (pure (Statement.branch condition taken (some other)))
          (pure (Statement.branch condition taken (some other))) q := by
      intro other q ws hother
      refine .pure ⟨?_, Nat.zero_le _⟩
      rw [hfront, Statement.atoms, Statement.atomsOfAll_eq_flatMap, List.append_nil, atoms_append,
        atoms_of_keyword helse, hother.atoms, List.nil_append]
    refine Walks.pass h₅.ended (not_end_of_keyword helse) fun p₆ hts₆ => ?_
    have h₆ := h₅.after hts₆
    refine Walks.sees_bind (fun _ => ?_) fun _ => ?_
    · exact (hn p₆ h₆).bind fun other p₇ ws _ hother => hfinish hother
    · have hother : Walks (Keeps Statement.atoms 0) (Statement.block <$> block nested)
          (Statement.block <$> block nested') p₆ := by
        refine Walks.map ((block_walks hn h₆.deeper).weaken fun ss ws hss => ⟨?_, Nat.zero_le _⟩)
        rw [Statement.atoms, Statement.atomsOfAll_eq_flatMap, hss.atoms]
      exact hother.bind fun other p₇ ws _ hother => hfinish hother
  · rw [hfront, Statement.atoms, Statement.atomsOfAll_eq_flatMap, atoms_nil, List.append_nil]

/-- A statement that ends with an expression, behind the tokens `front`. -/
theorem ending_walks {f : Expr → Statement} (front : List Token) (hlast : p.last.isEnd = true)
    (hf : ∀ e, (f e).atoms = Token.atoms front ++ e.atoms) :
    Walks (fun s us => Keeps Statement.atoms 0 s (front ++ us)) (do return f (← expression))
      (do return f (← expression)) p := by
  refine (expression_walks hlast).bind fun e q us _ he => .pure ⟨?_, Nat.zero_le _⟩
  rw [List.append_nil, atoms_append, hf, he.atoms]

theorem statement_walks (hn : NestedStatementWalks d nested nested') :
    NestedStatementWalks (d + 1) (statement nested) (statement nested') := by
  intro p h
  refine Walks.state_bind ?_
  simp only
  cases hlet : p.current.isKeyword "let" with
  | true =>
    refine Walks.pass h.ended (not_end_of_keyword hlet) fun p₁ hts₁ => ?_
    have h₁ := h.after hts₁
    refine (Walks.token (takes_expected _ _) h₁.ended not_end_of_name).bind fun name p₂ us hus hname => ?_
    obtain ⟨rfl, rfl, hname⟩ := hname
    have h₂ := h₁.after hus
    refine Walks.operator "=" h₂.ended fun p₃ hts₃ hequals => ?_
    refine ending_walks ([p.current] ++ ([p₁.current] ++ [p₂.current])) (h₂.after hts₃).ended fun e => ?_
    simp only [atoms_append, atoms_of_keyword hlet, atoms_of_operator hequals, atoms_of_name hname,
      Statement.atoms]
    rfl
  | false =>
  cases hif : p.current.isKeyword "if" with
  | true => exact branch_walks hn h hif
  | false =>
  cases hreturn : p.current.isKeyword "return" with
  | true =>
    refine Walks.pass h.ended (not_end_of_keyword hreturn) fun p₁ hts₁ => ?_
    refine ending_walks [p.current] (h.after hts₁).ended fun e => ?_
    rw [atoms_of_keyword hreturn, Statement.atoms, List.nil_append]
  | false =>
  cases hassign : p.current.isName && (p.peek 1).isOperator "=" with
  | true =>
    obtain ⟨hname, hequals⟩ := Bool.and_eq_true_iff.mp hassign
    have hend := not_end_of_name hname
    have hts₁ := Parser.Reaches.advanced h.ended hend
    refine Walks.pass_advanced h.ended hend ?_
    have h₁ := h.after hts₁
    rw [peek_behind h.ended hend] at hequals
    have hk := (operator_of_isOperator hequals).1
    refine Walks.pass h₁.ended (not_end_of_operator hk) fun p₂ hts₂ => ?_
    refine ending_walks ([p.current] ++ [p.advanced.current]) (h₁.after hts₂).ended fun e => ?_
    simp only [atoms_append, atoms_of_operator hequals, atoms_of_name hname, Statement.atoms]
    rfl
  | false =>
    by_cases hk : p.current.kind = .keyword
    · simp only [hk]
      exact .fail rfl rfl
    · simp only [hk, if_false]
      exact ending_walks [] h.ended fun e => by rw [Statement.atoms, atoms_nil, List.nil_append]

/-- Depths that suffice are alike. -/
theorem nestedStatement_walks {n d d' : Nat} (h : n ≤ d) (h' : n ≤ d') :
    NestedStatementWalks n (nestedStatement d) (nestedStatement d') := by
  induction n generalizing d d' with
  | zero => exact fun p hp => absurd hp.weight_lt (Nat.not_lt_zero _)
  | succ n ih =>
    obtain ⟨d, rfl⟩ : ∃ k, d = k + 1 := ⟨d - 1, by omega⟩
    obtain ⟨d', rfl⟩ : ∃ k, d' = k + 1 := ⟨d' - 1, by omega⟩
    exact statement_walks (ih (by omega) (by omega))

/-! ### Whole texts -/

theorem end_walks {α : Type} {S : α → List Token → Prop} {a : α}
    (h : p.current.isEnd = true → S a []) :
    Walks S (do expectEnd; return a) (do expectEnd; return a) p := by
  have hend : Walks (fun _ us => us = [] ∧ p.current.isEnd = true) expectEnd expectEnd p :=
    Walks.sees_bind (fun hend => .pure ⟨rfl, hend⟩) fun _ => .fail rfl rfl
  refine hend.bind fun _ q us _ hus => .pure ?_
  obtain ⟨rfl, hend⟩ := hus
  exact h hend

theorem whole_walks (hlast : p.last.isEnd = true) :
    Walks (fun e us => e.atoms = Token.atoms us) whole whole p := by
  refine (expression_walks hlast).bind fun e q us _ he => end_walks fun _ => ?_
  rw [List.append_nil, he.atoms]

theorem program_walks (hlast : p.last.isEnd = true) :
    Walks (fun body us => body.flatMap Statement.atoms = Token.atoms us) program program p := by
  have hn := nestedStatement_walks (Nat.le_refl (weight p.ahead + 1)) (Nat.le_refl _)
  refine Walks.state_bind ((statements_walk hn (.own hlast)).bind fun body q us _ hbody =>
    end_walks fun _ => ?_)
  rw [List.append_nil, hbody.atoms]

/-- No expansion puts an end token among the others. -/
theorem Passes.no_end {ts us vs : List Token} (h : Passes ts us vs) (hts : ∀ t ∈ ts, t.isEnd = false) :
    ∀ t ∈ vs, t.isEnd = false := by
  induction h with
  | stay ts => exact hts
  | token _ _ ih => exact ih fun u hu => hts u (List.mem_cons_of_mem _ hu)
  | expand hspan _ ih =>
    refine ih fun t ht => ?_
    rcases List.mem_append.mp ht with ht | ht
    · exact hspan.expansion_no_end ht
    · exact hts t (List.mem_append_right _ ht)

theorem current_of_ended {α : Type} {m : Parse α} {p q : Parser} {a : α}
    (h : (do let a ← m; expectEnd; return a : Parse α).run p = (.ok a, q)) : q.current.isEnd = true := by
  obtain ⟨b, p₁, -, h⟩ := bind_ok h
  obtain ⟨_, p₂, hend, h⟩ := bind_ok h
  cases h
  have hend : (if p₁.current.isEnd = true then return () else unexpected .endOfInput : Parse Unit).run p₁ =
      (.ok (), q) := hend
  cases hcurrent : p₁.current.isEnd with
  | true =>
    rw [hcurrent, if_pos rfl] at hend
    cases hend
    exact hcurrent
  | false =>
    rw [hcurrent, if_neg Bool.false_ne_true] at hend
    cases hend

theorem atoms_passed {p q : Parser} {us : List Token} (hus : p.Reaches us q)
    (hp : ∀ t ∈ p.ahead, t.isEnd = false) (hq : q.current.isEnd = true) :
    Token.atoms us = Token.atoms p.ahead := by
  have hnil : q.ahead = [] := by
    cases hahead : q.ahead with
    | nil => rfl
    | cons t ts =>
      have ht := hus.ahead.no_end hp t (by rw [hahead]; exact List.mem_cons_self)
      rw [Parser.current_of_ahead hahead, ht] at hq
      cases hq
  have hatoms := hus.ahead.atoms
  rw [hnil, atoms_nil, List.append_nil] at hatoms
  exact hatoms.symm

theorem ofTokens_ahead (tokens : List Token) (table : Precedence)
    (h : ∀ t ∈ tokens.dropLast, t.isEnd = false) :
    (∀ t ∈ (Parser.ofTokens tokens table).ahead, t.isEnd = false) ∧
      Token.atoms (Parser.ofTokens tokens table).ahead = Token.atoms tokens := by
  rcases List.eq_nil_or_concat tokens with rfl | ⟨ts, t, rfl⟩
  · exact ⟨fun t ht => (nomatch ht), rfl⟩
  · rw [List.concat_eq_append] at h ⊢
    rw [List.dropLast_concat] at h
    cases hend : t.isEnd with
    | true =>
      rw [Parser.ofTokens_ended hend, atoms_append, atoms_of_other (no_atom_of_end hend), atoms_nil,
        List.append_nil]
      exact ⟨h, rfl⟩
    | false =>
      rw [Parser.ofTokens_open rfl hend]
      refine ⟨fun u hu => ?_, rfl⟩
      rcases List.mem_append.mp hu with hu | hu
      · exact h u hu
      · rw [List.mem_singleton.mp hu, hend]

/-- The operands of a text are those of its tree, in order: none is dropped, read twice or moved, with
any table. An end token comes only at the end. -/
theorem operands_conserved (tokens : List Token) (table : Precedence)
    (hends : ∀ t ∈ tokens.dropLast, t.isEnd = false) :
    (∀ e, (whole.run (Parser.ofTokens tokens table)).1 = .ok e → e.atoms = tokens.filter isAtom) ∧
      ∀ body, (program.run (Parser.ofTokens tokens table)).1 = .ok body →
        body.flatMap Statement.atoms = tokens.filter isAtom := by
  have hlast := Parser.ofTokens_last tokens table
  obtain ⟨hahead, hatoms⟩ := ofTokens_ahead tokens table hends
  generalize Parser.ofTokens tokens table = p at hlast hahead hatoms
  refine ⟨fun e he => ?_, fun body hbody => ?_⟩
  · have hrun : whole.run p = (.ok e, (whole.run p).2) := Prod.ext he rfl
    obtain ⟨us, hus, hkept⟩ := (whole_walks hlast).answer hrun
    rw [hkept, atoms_passed hus hahead (current_of_ended hrun)]
    exact hatoms
  · have hrun : program.run p = (.ok body, (program.run p).2) := Prod.ext hbody rfl
    obtain ⟨us, hus, hkept⟩ := (program_walks hlast).answer hrun
    have hcurrent : ((program.run p).2).current.isEnd = true := by
      have hown : program.run p = (do
          let body ← statements Token.isEnd (nestedStatement (weight p.ahead + 1))
          expectEnd
          return body : Parse Program).run p := rfl
      exact current_of_ended (hown.symm.trans hrun)
    rw [hkept, atoms_passed hus hahead hcurrent]
    exact hatoms

/-- `let f = (x, y) -> x + <1>; if (!f) { f = a().max(1, 2.5); } else { return 3s }`. -/
theorem operands_conserved_of_program :
    let name (s : String) := Mark.sign .name s
    let source := [Mark.sign .keyword "let", name "f", .op "=", .br "(", name "x", .op ",", name "y",
      .br ")", .op "->", name "x", .op "+", .op "<", .sign .integer "1", .op ">", .op ";",
      .sign .keyword "if", .br "(", .op "!", name "f", .br ")", .br "\x7b", name "f", .op "=", name "a",
      .br "(", .br ")", .op ".", name "max", .br "(", .sign .integer "1", .op ",", .sign .float "2.5",
      .br ")", .op ";", .br "\x7d", .sign .keyword "else", .br "\x7b", .sign .keyword "return",
      .sign .duration "3s", .br "\x7d"]
    let tokens := source.map Mark.token
    (∀ t ∈ tokens.dropLast, t.isEnd = false) ∧
      ∃ body, (program.run (Parser.ofTokens tokens .standard)).1 = .ok body ∧
        body.flatMap Statement.atoms = [name "f", name "x", name "y", name "x", .sign .integer "1",
          name "f", name "f", name "a", name "max", .sign .integer "1", .sign .float "2.5",
          .sign .duration "3s"].map Mark.token := by
  intro name source tokens
  have hends : ∀ t ∈ tokens.dropLast, t.isEnd = false := by decide
  have hok : (program.run (Parser.ofTokens tokens .standard)).1.isOk = true := by decide +kernel
  obtain ⟨body, hbody⟩ := ok_of_isOk hok
  refine ⟨hends, body, hbody, ?_⟩
  rw [(operands_conserved tokens .standard hends).2 body hbody]
  decide

end EventRules
