import EventRules.Proofs.Rule.Looping
import EventRules.Proofs.Rule.Speculation

/-!
# Operands kept in order

Each construct of an expression walks when the steps for nested expressions do, and keeps the operands
of the tokens it passes: no lookahead takes one away, none is read twice, and the values of a shorthand
stay where they stood.
-/

namespace EventRules
set_option autoImplicit false

open Token Routine Parse Respelling

variable {nested nested' : Parse Expr} {d n : Nat} {p q : Parser} {s : String} {ts : List Token}

/-- The steps for nested expressions walk where the depth suffices. -/
def NestedWalks (d : Nat) (nested nested' : Parse Expr) : Prop :=
  ∀ p : Parser, p.Within d → Walks (Keeps Expr.atoms 1) nested nested' p

theorem NestedWalks.within (hn : NestedWalks d nested nested') (table : Precedence) (h : p.Within d) :
    Walks (Keeps Expr.atoms 1) (withTable table nested) (withTable table nested') p :=
  .withTable (hn _ h.same)

/-! ### Literals and groups -/

theorem atoms_of_operator (h : p.current.isOperator s = true) : Token.atoms [p.current] = [] :=
  atoms_of_other (no_atom_of_operator h) []

theorem atoms_of_bracket (h : p.current.kind = .bracket) : Token.atoms [p.current] = [] :=
  atoms_of_other (no_atom_of_kind (Or.inr (Or.inl h))) []

theorem scalar_walks (hlast : p.last.isEnd = true) (hs : p.current.isScalar = true) :
    Walks (Keeps Expr.atoms 1) scalar scalar p := by
  obtain ⟨hbracket, hoperator, hend⟩ : p.current.kind ≠ .bracket ∧ p.current.kind ≠ .operator ∧
      p.current.kind ≠ .endOfInput := by
    refine ⟨?_, ?_, ?_⟩ <;> intro hk <;> simp [isScalar, hk] at hs
  refine Walks.pass hlast (not_end_of_kind hend) fun q _ => ?_
  refine (Walks.ofExcept (S := fun _ us => us = []) (literalOf p.current) fun _ => rfl).bind
    fun value r us _ hus => ?_
  subst hus
  refine .pure ⟨?_, ?_⟩
  · rw [List.append_nil, List.append_nil, atoms_of_atom (atom_of_scalar hs), Expr.atoms, atoms_nil]
  · have hsize := size_of_kind hbracket hoperator
    rw [List.append_nil, List.append_nil, total_cons]
    omega

theorem range_walks (hn : NestedWalks d nested nested') (h : p.Within (d + 1))
    (ho : p.current.isBracket s = true) : Walks (Keeps Expr.atoms 1) (range nested) (range nested') p := by
  refine Walks.pass h.ended (not_end_of_bracket ho) fun p₁ hts₁ => ?_
  have h₁ := h.behind hts₁
  refine (hn.within .arithmetic h₁).bind fun lower p₂ ls hls hlower => ?_
  have h₂ := h₁.after hls
  refine Walks.operator "," h₂.ended fun p₃ hts₃ hcomma => ?_
  have h₃ := h₂.after hts₃
  refine (hn.within .arithmetic h₃).bind fun upper p₄ us hus hupper => ?_
  have hclosing : ∀ t : Token, (t.isBracket ")" || t.isBracket "]") = true → t.kind = .bracket := by
    intro t ht
    rcases Bool.or_eq_true_iff.mp ht with ht | ht <;> exact (bracket_of_isBracket ht).1
  refine Walks.closing _ (h₃.after hus).ended hclosing fun p₅ _ hc => .pure ⟨?_, ?_⟩
  · simp only [atoms_append, atoms_of_bracket (bracket_of_isBracket ho).1, atoms_of_operator hcomma,
      atoms_of_bracket hc, Expr.atoms, hlower.atoms, hupper.atoms, List.nil_append, List.append_nil]
  · have hpos := hlower.total_ge
    simp only [total_append]
    omega

/-- A comparison with the value under test. -/
theorem comparison_walks (hn : NestedWalks d nested nested') (op : CompareOp) (h : p.Within (d + 1))
    (hk : p.current.kind = .operator) :
    Walks (Keeps Expr.atoms 1) (comparison nested op) (comparison nested' op) p := by
  refine Walks.pass h.ended (not_end_of_operator hk) fun p₁ hts₁ => ?_
  refine Walks.sees_bind (fun _ => .fail rfl rfl) fun _ => ?_
  refine (hn.within .arithmetic (h.behind hts₁)).bind fun e p₂ us hus he => .pure ⟨?_, ?_⟩
  · rw [List.append_nil, atoms_append, atoms_of_other (no_atom_of_kind (Or.inl hk)), Expr.atoms, he.atoms]
    rfl
  · have hpos := he.total_ge
    simp only [total_append]
    omega

/-! ### Arrows -/

theorem stage_walks (hn : NestedWalks d nested nested') (h : p.Within (d + 1)) :
    Walks (Keeps Stage.atoms 1) (stage nested) (stage nested') p := by
  refine Walks.bracket "\x7b" h.ended fun p₁ hts₁ ho => ?_
  have h₁ := h.behind hts₁
  refine (hn.within .standard h₁).bind fun body p₂ us hus hbody => ?_
  refine Walks.closing _ (h₁.after hus).ended (fun t ht => (bracket_of_isBracket ht).1)
    fun p₃ _ hc => .pure ⟨?_, ?_⟩
  · simp only [atoms_append, atoms_of_bracket (bracket_of_isBracket ho).1, atoms_of_bracket hc,
      Stage.atoms, hbody.atoms, List.nil_append, List.append_nil]
  · have hpos := hbody.total_ge
    simp only [total_append]
    omega

/-- A stage behind the sign between two stages. -/
theorem next_stage_walks (hn : NestedWalks d nested nested') (h : p.Within (d + 1))
    (harrow : p.current.isOperator "->" = true) :
    Walks (Keeps Stage.atoms 2) (do let _ ← advance; stage nested) (do let _ ← advance; stage nested')
      p := by
  have hk := (operator_of_isOperator harrow).1
  refine Walks.pass h.ended (not_end_of_operator hk) fun p₁ hts₁ => ?_
  refine (stage_walks hn (h.after hts₁)).weaken fun s us hs => ⟨?_, ?_⟩
  · rw [atoms_append, atoms_of_operator harrow, hs.atoms, List.nil_append]
  · have hpos := hs.total_ge
    have hsize := size_of_operator hk
    rw [total_append, total_cons]
    omega

theorem arrow_walks (hn : NestedWalks d nested nested') (h : p.Within (d + 1)) :
    Walks (Keeps Expr.atoms 1) (arrow nested) (arrow nested') p := by
  refine (stage_walks hn h).bind fun first p₁ us hus hfirst => ?_
  refine (Walks.many (fun t ht => (operator_of_isOperator ht).1)
    (fun q hq harrow => next_stage_walks hn hq harrow) (h.after hus)).bind
      fun others p₂ vs _ hothers => .pure ⟨?_, ?_⟩
  · rw [Expr.atoms_arrow, List.flatMap_cons, hfirst.atoms, hothers.atoms, List.append_nil, atoms_append]
  · have hpos := hfirst.total_ge
    simp only [total_append]
    omega

/-! ### Calls -/

theorem marker_walks (name : Token) (hlast : p.last.isEnd = true) :
    Walks (fun _ us => Token.atoms us = []) (strictMarker name) (strictMarker name) p := by
  refine Walks.state_bind ?_
  cases hmarked : p.current.isOperator "!" && p.current.position.offset == name.endOffset &&
      (p.peek 1).isBracket "(" with
  | false => exact .pure rfl
  | true =>
    simp only [Bool.and_eq_true] at hmarked
    have hmark := hmarked.1.1
    refine Walks.pass hlast (not_end_of_operator (operator_of_isOperator hmark).1) fun q _ => .pure ?_
    rw [List.append_nil]
    exact atoms_of_operator hmark

/-- An argument behind a comma. -/
theorem next_argument_walks (hn : NestedWalks d nested nested') (h : p.Within d)
    (hcomma : p.current.isOperator "," = true) :
    Walks (Keeps Expr.atoms 2) (do let _ ← advance; withTable .standard nested)
      (do let _ ← advance; withTable .standard nested') p := by
  have hk := (operator_of_isOperator hcomma).1
  refine Walks.pass h.ended (not_end_of_operator hk) fun p₁ hts₁ => ?_
  refine (hn.within .standard (h.after hts₁)).weaken fun e us he => ⟨?_, ?_⟩
  · rw [atoms_append, atoms_of_operator hcomma, he.atoms, List.nil_append]
  · have hpos := he.total_ge
    have hsize := size_of_operator hk
    rw [total_append, total_cons]
    omega

theorem arguments_walks (hn : NestedWalks d nested nested') (h : p.Within (d + 1)) (name : Token)
    (isStrict : Bool) :
    Walks (fun c us => c.atoms = name :: Token.atoms us) (arguments nested name isStrict)
      (arguments nested' name isStrict) p := by
  refine Walks.bracket "(" h.ended fun p₁ hts₁ ho => ?_
  have h₁ := h.behind hts₁
  have hclose : ∀ {q : Parser} (us : List Token) (args : List Expr), q.last.isEnd = true →
      args.flatMap Expr.atoms = Token.atoms us →
      Walks (fun (c : Call Expr) vs => c.atoms = name :: Token.atoms ([p.current] ++ (us ++ vs)))
        (do
          let _ ← expectClosing (·.isBracket ")") p.current
          return (⟨name, isStrict, args⟩ : Call Expr))
        (do
          let _ ← expectClosing (·.isBracket ")") p.current
          return (⟨name, isStrict, args⟩ : Call Expr)) q := by
    intro q us args hq hargs
    refine Walks.closing _ hq (fun t ht => (bracket_of_isBracket ht).1) fun q' _ hc => .pure ?_
    simp only [Call.atoms, atoms_append, atoms_of_bracket (bracket_of_isBracket ho).1, hargs,
      atoms_of_bracket hc, List.nil_append, List.append_nil]
  refine Walks.sees_bind (fun _ => ?_) fun _ => ?_
  · exact hclose [] [] h₁.ended rfl
  · refine (hn.within .standard h₁).bind fun first p₂ us hus hfirst => ?_
    have h₂ := h₁.after hus
    refine (Walks.many (fun t ht => (operator_of_isOperator ht).1)
      (fun q hq hcomma => next_argument_walks hn hq hcomma) h₂).bind fun others p₃ vs hvs hothers => ?_
    have hargs : (first :: others).flatMap Expr.atoms = Token.atoms (us ++ vs) := by
      rw [List.flatMap_cons, hfirst.atoms, hothers.atoms, atoms_append]
    refine (hclose (us ++ vs) (first :: others) (h₂.after hvs).ended hargs).weaken fun c ws hc => ?_
    rw [hc]
    simp only [List.append_assoc]

/-- A call behind a point. -/
theorem chainElement_walks (hn : NestedWalks d nested nested') (h : p.Within (d + 1))
    (hpoint : p.current.isOperator "." = true) :
    Walks (Keeps Call.atoms 2) (chainElement nested) (chainElement nested') p := by
  have hk := (operator_of_isOperator hpoint).1
  refine Walks.pass h.ended (not_end_of_operator hk) fun p₁ hts₁ => ?_
  have h₁ := h.after hts₁
  refine Walks.current_bind ?_
  cases hname : p₁.current.isName with
  | false =>
    simp only [Bool.not_false, if_true]
    exact .fail rfl rfl
  | true =>
    simp only [Bool.not_true, Bool.false_eq_true, if_false]
    have hatom : Token.atoms [p₁.current] = [p₁.current] := atoms_of_atom (atom_of_name hname) []
    refine Walks.pass h₁.ended (not_end_of_name hname) fun p₂ hts₂ => ?_
    have h₂ := h₁.after hts₂
    refine (marker_walks p₁.current h₂.ended).bind fun isStrict p₃ ms hms hmark => ?_
    refine Walks.sees_bind (fun _ => ?_) fun _ => .fail rfl rfl
    refine (arguments_walks hn (h₂.after hms) p₁.current isStrict).weaken fun c us hc => ⟨?_, ?_⟩
    · rw [hc]
      simp only [atoms_append, atoms_of_operator hpoint, hatom, hmark, List.nil_append]
      rfl
    · have hsize := size_of_other_operator hpoint (by decide)
      simp only [total_append, total_cons]
      omega

/-- What a name begins: a variable, a call or a chain of calls. -/
theorem named_walks (hn : NestedWalks d nested nested') (h : p.Within (d + 1))
    (hname : p.current.isName = true) : Walks (Keeps Expr.atoms 1) (named nested) (named nested') p := by
  have hk : p.current.kind = .name := by simpa [isName] using hname
  have hatom : Token.atoms [p.current] = [p.current] := atoms_of_atom (atom_of_name hname) []
  have hsize : p.current.size = 2 := size_of_kind (by simp [hk]) (by simp [hk])
  refine Walks.pass h.ended (not_end_of_name hname) fun p₁ hts₁ => ?_
  have h₁ := h.after hts₁
  refine (marker_walks p.current h₁.ended).bind fun isStrict p₂ ms hms hmark => ?_
  have h₂ := h₁.after hms
  refine Walks.sees_bind (fun _ => ?_) fun _ => .pure ⟨?_, ?_⟩
  · refine (arguments_walks hn h₂ p.current isStrict).bind fun first p₃ us hus hfirst => ?_
    refine (Walks.many (fun t ht => (operator_of_isOperator ht).1)
      (fun q hq hpoint => chainElement_walks hn hq hpoint) (h₂.after hus)).bind
        fun others p₄ vs _ hothers => .pure ⟨?_, ?_⟩
    · have hsum : (first :: others).flatMap Call.atoms =
          Token.atoms ([p.current] ++ (ms ++ (us ++ (vs ++ [])))) := by
        simp only [List.flatMap_cons, hfirst, hothers.atoms, atoms_append, hatom, hmark, List.nil_append,
          List.append_nil]
        rfl
      cases others with
      | nil =>
        rw [← hsum, List.flatMap_cons, List.flatMap_nil, List.append_nil]
        exact Expr.atoms_call first
      | cons other others =>
        rw [← hsum]
        exact Expr.atoms_chain _
    · simp only [total_append, total_cons]
      omega
  · simp only [atoms_append, hatom, hmark, Expr.atoms, List.append_nil]
  · simp only [total_append, total_cons]
    omega

/-! ### Parentheses -/

theorem lambda_close_atoms (h : lambdaHead?.close ts = some n) : Token.atoms (ts.take n) = [] := by
  obtain ⟨c, a, rest, rfl, rfl, hc, ha⟩ := lambda_close_split h
  rw [List.take_succ_cons, List.take_succ_cons, List.take_zero, atoms_of_other (no_atom_of_bracket hc),
    atoms_of_other (no_atom_of_operator ha), atoms_nil]

theorem lambda_params_atoms {ts ps : List Token} {n : Nat} (h : lambdaHead?.params ts = some (ps, n)) :
    Token.atoms (ts.take n) = ps := by
  rcases ts with _ | ⟨t, _ | ⟨u, rest⟩⟩
  · cases h
  · cases h
  · rw [lambdaHead?.params] at h
    split at h
    · next hname =>
      have hname := atom_of_name hname
      split at h
      · next hcomma =>
        obtain ⟨⟨ps', m⟩, hparams, heq⟩ := Option.map_eq_some_iff.mp h
        cases heq
        rw [List.take_succ_cons, List.take_succ_cons, atoms_of_atom hname,
          atoms_of_other (no_atom_of_operator hcomma), lambda_params_atoms hparams]
      · obtain ⟨m, hclose, heq⟩ := Option.map_eq_some_iff.mp h
        cases heq
        rw [List.take_succ_cons, atoms_of_atom hname, lambda_close_atoms hclose]
    · obtain ⟨m, hclose, heq⟩ := Option.map_eq_some_iff.mp h
      cases heq
      exact lambda_close_atoms hclose

/-- The operands up to the arrow of an anonymous function are its parameters. -/
theorem lambdaHead_atoms {ps : List Token} (h : lambdaHead? ts = some (ps, n)) :
    Token.atoms (ts.take n) = ps := by
  cases ts with
  | nil => cases h
  | cons t ts =>
    rw [lambdaHead?] at h
    split at h
    · next ht =>
      obtain ⟨⟨ps', m⟩, hparams, heq⟩ := Option.map_eq_some_iff.mp h
      cases heq
      rw [List.take_succ_cons, atoms_of_other (no_atom_of_bracket ht), lambda_params_atoms hparams]
    · cases h

theorem lambda_walks (hn : NestedWalks d nested nested') (h : p.Within (d + 1)) {params : List Token}
    (hhead : lambdaHead? p.ahead = some (params, n)) :
    Walks (Keeps Expr.atoms 1)
      (do
        skip n
        let body ← withTable .standard nested
        return Expr.lambda params body)
      (do
        skip n
        let body ← withTable .standard nested'
        return Expr.lambda params body) p := by
  have hparams := lambdaHead_atoms hhead
  obtain ⟨t, head, rest, hp, hlen, -, hend, -⟩ := lambdaHead_passed hhead
  rw [hp, List.take_left' hlen] at hparams
  refine (Walks.of_reads hp hend (.skip hlen hend)).bind fun _ p₁ us hus hskip => ?_
  obtain ⟨-, rfl⟩ := hskip
  refine (hn.within .standard (h.behind hus)).bind fun body p₂ vs _ hbody => .pure ⟨?_, ?_⟩
  · simp only [atoms_append, hparams, hbody.atoms, Expr.atoms, List.append_nil]
  · have hpos := hbody.total_ge
    simp only [total_append]
    omega

/-- An expression in parentheses. -/
theorem enclosed_walks (hn : NestedWalks d nested nested') (h : p.Within (d + 1))
    (ho : p.current.isBracket "(" = true) :
    Walks (Keeps Expr.atoms 1)
      (do
        let opening ← advance
        let inner ← nested
        let _ ← expectClosing (·.isBracket ")") opening
        return inner)
      (do
        let opening ← advance
        let inner ← nested'
        let _ ← expectClosing (·.isBracket ")") opening
        return inner) p := by
  refine Walks.pass h.ended (not_end_of_bracket ho) fun p₁ hts₁ => ?_
  have h₁ := h.behind hts₁
  refine (hn p₁ h₁).bind fun inner p₂ us hus hinner => ?_
  refine Walks.closing _ (h₁.after hus).ended (fun t ht => (bracket_of_isBracket ht).1)
    fun p₃ _ hc => .pure ⟨?_, ?_⟩
  · simp only [atoms_append, atoms_of_bracket (bracket_of_isBracket ho).1, atoms_of_bracket hc,
      hinner.atoms, List.nil_append, List.append_nil]
  · have hpos := hinner.total_ge
    simp only [total_append]
    omega

theorem parenthesised_walks (hn : NestedWalks d nested nested') (h : p.Within (d + 1))
    (ho : p.current.isBracket "(" = true) :
    Walks (Keeps Expr.atoms 1) (parenthesised nested) (parenthesised nested') p := by
  refine Walks.state_bind ?_
  cases hhead : lambdaHead? p.ahead with
  | some head => exact lambda_walks hn h hhead
  | none =>
    cases hguess : startsRange p.ahead with
    | true => exact range_walks hn h ho
    | false => exact enclosed_walks hn h ho

/-! ### Operands -/

theorem symbolic_walks (hn : NestedWalks d nested nested') (h : p.Within (d + 1))
    (hk : p.current.kind = .operator) (hend : shorthandEnd? p.ahead = none) :
    Walks (Keeps Expr.atoms 1) (symbolic nested p.current) (symbolic nested' p.current) p := by
  cases hop : CompareOp.ofSymbol? p.current.text with
  | none =>
    refine Walks.fail (e := .unexpected .expression p.current) ?_ ?_
    · rw [symbolic_run _ hend, hop]
      rfl
    · rw [symbolic_run _ hend, hop]
      rfl
  | some op =>
    refine (comparison_walks hn op h hk).congr ?_ ?_
    · rw [symbolic_run _ hend, hop, Option.elim_some]
    · rw [symbolic_run _ hend, hop, Option.elim_some]

/-- A shorthand is read as its arrow. -/
theorem shorthand_walks (hn : NestedWalks d nested nested') (h : p.Within (d + 1))
    (hend : shorthandEnd? p.ahead = some n) :
    Walks (Keeps Expr.atoms 1) (primary nested) (primary nested') p := by
  obtain ⟨span, rest, hp, hspan, hexpanded⟩ := Parser.expanded_eq hend
  obtain ⟨t, ss, hs, ht⟩ := hspan.begins
  have hk : p.current.kind = .operator := by
    rw [hs] at hp
    rw [Parser.current_of_ahead hp]
    exact (operator_of_isOperator ht).1
  have hwithin : (p.before (expandShorthand span ++ rest)).Within (d + 1) := by
    refine ⟨h.ended, Nat.lt_of_le_of_lt ?_ h.weight_lt⟩
    rw [hp]
    exact (Unfolds.expand hspan (.refl _)).weight_le
  refine Walks.of_expanded hspan hp (arrow_walks hn hwithin) ?_ ?_
  · rw [primary_of_operator hk, symbolic_of_shorthand hend, hexpanded]
  · rw [primary_of_operator hk, symbolic_of_shorthand hend, hexpanded]

theorem primary_walks (hn : NestedWalks d nested nested') (h : p.Within (d + 1)) :
    Walks (Keeps Expr.atoms 1) (primary nested) (primary nested') p := by
  cases hend : shorthandEnd? p.ahead with
  | some n => exact shorthand_walks hn h hend
  | none =>
    refine Walks.current_bind ?_
    cases hkind : p.current.kind with
    | bracket =>
      have hbracket : ∀ {s : String}, p.current.text = s → p.current.isBracket s = true := by
        intro s hs
        simp [isBracket, hkind, hs]
      by_cases hrange : p.current.text = "["
      · simp only [hrange, if_true]
        exact range_walks hn h (hbracket hrange)
      by_cases hparen : p.current.text = "("
      · simp only [hparen]
        exact parenthesised_walks hn h (hbracket hparen)
      by_cases hbrace : p.current.text = "\x7b"
      · simp only [hbrace]
        exact arrow_walks hn h
      · simp only [hrange, hparen, hbrace, if_false]
        exact .fail rfl rfl
    | operator => exact symbolic_walks hn h hkind hend
    | name => exact named_walks hn h (by simp [isName, hkind])
    | keyword => exact .fail rfl rfl
    | endOfInput => exact .fail rfl rfl
    | _ => exact scalar_walks h.ended (by simp [isScalar, hkind])

theorem prefix_walks (q : Parser) (hq : q.Within d) (hunary : (unaryOp? q.current).isSome = true) :
    Walks (Keeps (fun _ : Token => []) 2) advance advance q := by
  have hk := operator_of_unary hunary
  refine (Walks.token takes_any hq.ended fun _ => not_end_of_operator hk).weaken fun t ts ht => ?_
  obtain ⟨rfl, rfl, -⟩ := ht
  exact ⟨(atoms_of_other (no_atom_of_kind (Or.inl hk)) []).symm, Nat.le_of_eq (size_of_unary hunary).symm⟩

/-- An operand with the unary operators in front of it. -/
theorem operand_walks (hn : NestedWalks d nested nested') (h : p.Within (d + 1)) :
    Walks (Keeps Expr.atoms 1) (operand nested) (operand nested') p := by
  refine (Walks.many (fun t => operator_of_unary) prefix_walks h).bind fun symbols p₁ us hus hsymbols => ?_
  refine (primary_walks hn (h.after hus)).bind fun inner p₂ vs _ hinner => .pure ⟨?_, ?_⟩
  · have hnone : Token.atoms us = [] := by
      rw [← hsymbols.atoms]
      exact List.flatMap_eq_nil_iff.mpr fun _ _ => rfl
    rw [Expr.atoms_prefixed, hinner.atoms, List.append_nil, atoms_append, hnone, List.nil_append]
  · have hpos := hinner.total_ge
    simp only [total_append]
    omega

/-! ### Expressions -/

theorem link_walks (hn : NestedWalks d nested nested') (h : p.Within (d + 1))
    (hk : p.current.kind = .operator) :
    Walks (Keeps (fun l : Link => l.operand.atoms) 2) (link nested) (link nested') p := by
  cases hop : BinaryOp.ofSymbol? p.current.text with
  | none =>
    have hfail : ∀ nested : Parse Expr,
        (link nested).run p = (.error (.unexpected .binaryOperator p.current), p) := by
      intro nested
      rw [link_run, hop]
      rfl
    exact .fail (hfail nested) (hfail nested')
  | some op =>
    have hrun : ∀ nested : Parse Expr,
        (link nested).run p = (linkOf nested ((operatorRank? p).getD 0) op).run p := by
      intro nested
      rw [link_run, hop]
    refine Walks.congr (Walks.pass h.ended (not_end_of_operator hk) fun p₁ hts₁ => ?_) (hrun nested)
      (hrun nested')
    refine (operand_walks hn (h.after hts₁)).bind fun right p₂ us _ hright => .pure ⟨?_, ?_⟩
    · rw [List.append_nil, atoms_append, atoms_of_other (no_atom_of_kind (Or.inl hk)), hright.atoms]
      rfl
    · have hpos := hright.total_ge
      have hsize := size_of_operator hk
      simp only [total_append, total_cons]
      omega

/-- Operands joined by operators, as long as these satisfy the test. -/
def Parse.joinedWhile (more : Parser → Bool) (nested : Parse Expr) : Parse Expr := do
  let first ← operand nested
  let links ← roundsAhead more (link nested)
  return Link.group first links

theorem joinedWhile_walks {more : Parser → Bool} (hoperator : ∀ p, more p = true → p.current.kind = .operator)
    (hn : NestedWalks d nested nested') :
    NestedWalks (d + 1) (joinedWhile more nested) (joinedWhile more nested') := by
  intro p h
  refine (operand_walks hn h).bind fun first p₁ us hus hfirst => ?_
  have hlinks : Walks _ (roundsAhead more (link nested)) (roundsAhead more (link nested')) p₁ :=
    Walks.repeat_ahead hoperator (fun q hq hmore => link_walks hn hq (hoperator q hmore)) (h.after hus)
  have hgroup : ∀ ls vs, KeepsEach (fun l : Link => l.operand.atoms) ls vs →
      Keeps Expr.atoms 1 (Link.group first ls) (us ++ vs) := by
    intro ls vs hls
    refine ⟨?_, ?_⟩
    · rw [Link.atoms_group, hfirst.atoms, hls.atoms, atoms_append]
    · have hpos := hfirst.total_ge
      rw [total_append]
      omega
  exact Walks.congr (hlinks.weaken hgroup).map rfl rfl

theorem joined_walks (hn : NestedWalks d nested nested') :
    NestedWalks (d + 1) (joined nested) (joined nested') :=
  fun p h => (joinedWhile_walks (fun _ => operator_of_rank) hn p h).congr rfl rfl

/-- Depths that suffice are alike. -/
theorem nestedExpression_walks {d d' : Nat} (h : n ≤ d) (h' : n ≤ d') :
    NestedWalks n (nestedExpression d) (nestedExpression d') := by
  induction n generalizing d d' with
  | zero => exact fun p hp => absurd hp.weight_lt (Nat.not_lt_zero _)
  | succ n ih =>
    obtain ⟨d, rfl⟩ : ∃ k, d = k + 1 := ⟨d - 1, by omega⟩
    obtain ⟨d', rfl⟩ : ∃ k, d' = k + 1 := ⟨d' - 1, by omega⟩
    exact joined_walks (ih (by omega) (by omega))

theorem expression_walks (hlast : p.last.isEnd = true) :
    Walks (Keeps Expr.atoms 1) expression expression p :=
  (nestedExpression_walks (Nat.le_refl _) (Nat.le_refl _) p (.own hlast)).congr rfl rfl

end EventRules
