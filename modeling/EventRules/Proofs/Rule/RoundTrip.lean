import EventRules.Proofs.Rule.Constructs
import EventRules.Rule.Parser.Program

/-!
# Parsing undoes writing in full

One level of the grammar reads texts that are one token longer than those that the parser of nested
expressions reads, and so every depth reads the texts that are no longer than it. The depth that the
parser starts with is the weight of all its tokens.
-/

namespace EventRules.Parse
set_option autoImplicit false

open Routine

variable {nested : Parse Expr} {n : Nat} {bounded : Bool} {table : Precedence} {last : Token}
  {ts rest : List Token} {e : Expr}

/-! ### Operands and the operators between them -/

theorem primary_of_name {t : Token} {us : List Token} (h : t.isName = true)
    (hr : Reads (named nested) table last (t :: us) rest e) :
    Reads (primary nested) table last (t :: us) rest e := by
  have hk : t.kind = .name := by simpa [Token.isName] using h
  refine Reads.peek Reads.current ?_
  simpa only [List.cons_append, follower_cons, hk] using hr

theorem primary_of_scalar {t : Token} {us : List Token} (h : t.isScalar = true)
    (hr : Reads scalar table last (t :: us) rest e) :
    Reads (primary nested) table last (t :: us) rest e := by
  refine Reads.peek Reads.current ?_
  cases hk : t.kind <;> simp [Token.isScalar, hk] at h <;>
    simpa only [List.cons_append, follower_cons, hk] using hr

theorem primary_of_bracket {t : Token} {us : List Token} {s : String} (h : t.isBracket s = true)
    (hr : Reads (if s = "[" then range nested else if s = "(" then parenthesised nested
      else if s = "\x7b" then arrow nested else unexpected .expression) table last (t :: us) rest e) :
    Reads (primary nested) table last (t :: us) rest e := by
  obtain ⟨hk, rfl⟩ := bracket_of_isBracket h
  refine Reads.peek Reads.current ?_
  simp only [List.cons_append, follower_cons, hk]
  exact hr

theorem reads_primary (hn : ReadsWritten nested n) (he : e.Writable bounded)
    (hts : Spells e.operandMarks ts) (hlen : ts.length ≤ n + 1) (hrest : Delimits (follower last rest)) :
    Reads (primary nested) (scopeTable bounded) last ts rest e := by
  have hopen : e.isOpen = true → Reads (primary nested) (scopeTable bounded) last ts rest e := by
    intro h
    rw [Expr.operandMarks_of_open h, List.cons_append] at hts
    obtain ⟨o, us, rfl, ho, hus⟩ := Spells.cons_iff.mp hts
    obtain ⟨bs, cs, rfl, hbs, hcs⟩ := Spells.append_iff.mp hus
    obtain ⟨c, rfl, hc⟩ := Spells.singleton_iff.mp hcs
    have ho := bracket_of_shows ho
    simp only [List.length_cons, List.length_append] at hlen
    refine primary_of_bracket ho ?_
    exact reads_parenthesised hn he ho (bracket_of_shows hc) hbs (by omega) hrest.noArrow_ahead
  cases e with
  | binary op left right => exact hopen rfl
  | unary op operand => exact hopen rfl
  | compare op operand => exact hopen rfl
  | lambda params body => exact hopen rfl
  | scalar value token =>
    obtain ⟨t, rfl, rfl⟩ := Spells.singleton_iff.mp hts
    obtain ⟨ht, hv⟩ := he
    exact primary_of_scalar ht (reads_scalar ht hv)
  | ident name =>
    obtain ⟨t, rfl, rfl⟩ := Spells.singleton_iff.mp hts
    exact primary_of_name he (reads_ident he hrest)
  | range opening lower upper closing =>
    obtain ⟨o, us, rfl, rfl, -⟩ := Spells.cons_iff.mp hts
    rcases he.1 with ho | ho
    · refine primary_of_bracket ho ?_
      exact reads_parenthesised_range hn he ho hts hlen hrest.noArrow_ahead
    · refine primary_of_bracket ho ?_
      exact reads_range hn he hts hlen
  | arrow stages =>
    have hreads : Reads (arrow nested) (scopeTable bounded) last ts rest (.arrow stages) :=
      reads_arrow hn he hts hlen hrest
    obtain ⟨s, others, rfl⟩ := List.exists_cons_of_ne_nil he.1
    obtain ⟨ho, -⟩ := Expr.stagesWritable_iff.mp he.2 s List.mem_cons_self
    rw [Expr.operandMarks_arrow] at hts
    obtain ⟨o, us, rfl, rfl, -⟩ := Spells.cons_iff.mp hts
    exact primary_of_bracket ho hreads
  | call c =>
    obtain ⟨hname, hargs⟩ := he
    have hargs := Expr.argumentsWritable_iff.mp hargs
    have hw : ∀ d ∈ [c], d.name.isName = true ∧ ∀ e ∈ d.args, e.Writable false := by
      intro d hd
      obtain rfl := List.mem_singleton.mp hd
      exact ⟨hname, hargs⟩
    rw [Expr.operandMarks_call, ← List.append_nil (Expr.calledMarks c)] at hts
    have hreads : Reads (named nested) (scopeTable bounded) last ts rest (.call c) :=
      reads_calls hn hw hts hlen hrest
    obtain ⟨t, us, rfl, rfl, -⟩ := Spells.cons_iff.mp hts
    exact primary_of_name hname hreads
  | chain calls =>
    obtain ⟨hlength, hw⟩ := he
    have hw := Expr.callsWritable_iff.mp hw
    obtain ⟨c, cs, rfl⟩ := List.exists_cons_of_length_pos (Nat.lt_of_lt_of_le Nat.two_pos hlength)
    obtain ⟨d, ds, rfl⟩ := List.exists_cons_of_length_pos (Nat.lt_of_succ_lt_succ hlength)
    rw [Expr.operandMarks_chain] at hts
    have hreads : Reads (named nested) (scopeTable bounded) last ts rest (.chain (c :: d :: ds)) :=
      reads_calls hn hw hts hlen hrest
    obtain ⟨t, us, rfl, rfl, -⟩ := Spells.cons_iff.mp hts
    exact primary_of_name (hw c List.mem_cons_self).1 hreads

theorem unary_of_kind {t : Token} (h : t.kind ≠ .operator) : unaryOp? t = none := by
  rw [unaryOp?, if_neg h]

theorem reads_operand (hn : ReadsWritten nested n) (he : e.Writable bounded)
    (hts : Spells e.operandMarks ts) (hlen : ts.length ≤ n + 1) (hrest : Delimits (follower last rest)) :
    Reads (operand nested) (scopeTable bounded) last ts rest e := by
  have hprimary := reads_primary hn he hts hlen hrest
  obtain ⟨t, us, rfl, hbegin⟩ := operand_begins he hts
  refine Reads.peek (Reads.many_none ?_) (Reads.settle hprimary (Reads.pure e))
  simp [unary_of_kind (beginsOperand_kind hbegin).1]

theorem reads_unary (hn : ReadsWritten nested n) {op : UnaryOp} {operand : Expr}
    (hw : operand.Writable bounded) (hts : Spells (Expr.unary op operand).marks ts)
    (hlen : ts.length ≤ n + 1) (hrest : Delimits (follower last rest)) :
    Reads (Parse.operand nested) (scopeTable bounded) last ts rest (.unary op operand) := by
  obtain ⟨t, us, rfl, ⟨hk, ht⟩, hus⟩ := Spells.cons_iff.mp hts
  have hus : Spells operand.operandMarks us := hus
  have hop : unaryOp? t = some op := by
    rw [unaryOp?, if_pos hk, ht, UnaryOp.ofSymbol_symbol]
  rw [List.length_cons] at hlen
  have hprimary := reads_primary hn hw hus (by omega) hrest
  have hsymbols : Reads (many (fun t => (unaryOp? t).isSome) advance) (scopeTable bounded) last [t]
      (us ++ rest) [t] := by
    obtain ⟨u, vs, rfl, hbegin⟩ := operand_begins hw hus
    have hpieces : ∀ piece ∈ [([t], t)], ∃ v ws, piece.1 = v :: ws ∧ (unaryOp? v).isSome = true ∧
        True ∧ ∀ rest, True → Reads advance (scopeTable bounded) last piece.1 rest piece.2 := by
      intro piece hp
      obtain rfl := List.mem_singleton.mp hp
      exact ⟨t, [], rfl, by simp [hop], trivial, fun _ _ => Reads.advance (not_end_of_operator hk)⟩
    refine Reads.many (fun _ => True) hpieces trivial ?_
    simp [unary_of_kind (beginsOperand_kind hbegin).1]
  refine Reads.token_bind hsymbols (Reads.settle hprimary ?_)
  simpa [hop] using Reads.pure (Expr.unary op operand)

theorem reads_no_links (hrest : Ends table (follower last rest)) (k : Nat) :
    Reads (repeatWhile (fun q => (operatorRank? q).isSome) (link nested) k) table last [] rest [] := by
  cases k with
  | zero => exact Reads.pure []
  | succ k =>
    refine Reads.state_bind fun passed => ?_
    have hrank : operatorRank? ⟨passed, rest, last, table⟩ = none := by
      rw [operatorRank?, current_eq_follower]
      split
      · next h => exact hrest.no_rank h
      · rfl
    simp only [List.nil_append, hrank, Option.isSome_none, Bool.false_eq_true, if_false]
    exact Reads.pure []

/-- Nothing is joined with an operand in front of the end of an expression. -/
theorem reads_joined {first : Expr} (h : Reads (operand nested) table last ts rest first)
    (hrest : Ends table (follower last rest)) :
    Reads (joined nested) table last ts rest first := by
  refine Reads.settle h (Reads.state_bind fun passed => ?_)
  refine Reads.settle (reads_no_links hrest _) ?_
  simpa using Reads.pure first

theorem reads_binary (hn : ReadsWritten nested n) {op : BinaryOp} {left right : Expr}
    (hw : (Expr.binary op left right).Writable bounded)
    (hts : Spells (Expr.binary op left right).marks ts) (hlen : ts.length ≤ n + 1)
    (hrest : Ends (scopeTable bounded) (follower last rest)) :
    Reads (joined nested) (scopeTable bounded) last ts rest (.binary op left right) := by
  obtain ⟨hop, hl, hr⟩ := hw
  obtain ⟨ls, us, rfl, hls, hus⟩ := Spells.append_iff.mp hts
  obtain ⟨t, rs, rfl, ⟨hk, ht⟩, hrs⟩ := Spells.cons_iff.mp hus
  simp only [List.length_cons, List.length_append] at hlen
  obtain ⟨rank, hrank⟩ := Option.isSome_iff_exists.mp (rank_binary hop)
  have hat : ∀ passed,
      operatorRank? ⟨passed, t :: rs ++ rest, last, scopeTable bounded⟩ = some rank := by
    intro passed
    rw [operatorRank?, current_eq_follower, follower_cons_append, if_pos hk, ht]
    exact hrank
  have hlink : Reads (link nested) (scopeTable bounded) last (t :: rs) rest ⟨rank, op, right⟩ := by
    refine Reads.state_bind fun passed => ?_
    simp only [hat, current_eq_follower, follower_cons_append, ht, BinaryOp.ofSymbol_symbol]
    refine Reads.token_bind (Reads.advance (not_end_of_operator hk)) ?_
    exact Reads.settle (reads_operand hn hr hrs (by omega) hrest.toDelimits) (Reads.pure _)
  have hgroup : Link.group left [⟨rank, op, right⟩] = .binary op left right := by
    rw [Link.group]
    simp [Link.root?]
  refine Reads.bind (reads_operand hn hl hls (by omega) (delimits_binary hk ht)) ?_
  refine Reads.state_bind fun passed => ?_
  have hlinks : Reads (repeatWhile (fun q => (operatorRank? q).isSome) (link nested)
      (t :: rs ++ rest).length) (scopeTable bounded) last (t :: rs) rest [⟨rank, op, right⟩] := by
    refine Reads.state_bind fun passed => ?_
    simp only [hat, Option.isSome_some, if_true]
    refine Reads.settle hlink (Reads.settle (reads_no_links hrest _) (Reads.pure _))
  refine Reads.settle hlinks ?_
  rw [hgroup]
  exact Reads.pure _

/-- A comparison that stands bare between brackets. -/
theorem reads_joined_comparison (hn : ReadsWritten nested n) {op : CompareOp} {operand : Expr}
    (hw : operand.Writable true) (hts : Spells (Expr.compare op operand).marks ts)
    (hlen : ts.length ≤ n + 1) {closing : Token} {s : String} (hc : closing.isBracket s = true)
    (hs : (s == "(") = false) :
    Reads (joined nested) table last ts (closing :: rest) (.compare op operand) := by
  have hprimary : Reads (primary nested) table last ts (closing :: rest) (.compare op operand) :=
    reads_comparison hn hw hts hlen hc hs
  refine reads_joined ?_ (ends_bracket hc hs table)
  obtain ⟨t, us, rfl, ⟨-, ht⟩, -⟩ := Spells.cons_iff.mp hts
  refine Reads.peek (Reads.many_none ?_) (Reads.settle hprimary (Reads.pure _))
  have hsymbol : UnaryOp.ofSymbol? op.symbol = none := by
    cases op <;> decide
  simp [unaryOp?, ht, hsymbol]

/-! ### All expressions -/

/-- One level of the grammar reads texts that are one token longer. -/
theorem ReadsWritten.joined (hn : ReadsWritten nested n) : ReadsWritten (joined nested) (n + 1) := by
  have hoperand : ∀ {e : Expr} {bounded : Bool} {last : Token} {ts rest : List Token},
      e.Writable bounded → Spells e.operandMarks ts → ts.length ≤ n + 1 →
        Ends (scopeTable bounded) (follower last rest) →
          Reads (Parse.joined nested) (scopeTable bounded) last ts rest e :=
    fun he hts hlen hrest => reads_joined (reads_operand hn he hts hlen hrest.toDelimits) hrest
  refine ⟨hoperand, ?_⟩
  intro e bounded last ts rest closing he hts hlen hc
  have hrest : Ends (scopeTable bounded) (follower last (closing :: rest)) :=
    ends_bracket hc (by decide) _
  -- without parentheses: what is open is read here, the rest as the operand that it also is
  cases e with
  | binary op left right => exact reads_binary hn he hts hlen hrest
  | unary op operand => exact reads_joined (reads_unary hn he hts hlen hrest.toDelimits) hrest
  | compare op operand => exact reads_joined_comparison hn he hts hlen hc (by decide)
  | lambda params body =>
    refine reads_joined ?_ hrest
    have hreads : Reads (parenthesised nested) (scopeTable bounded) last ts (closing :: rest)
        (.lambda params body) := reads_lambda hn he hts hlen hc
    obtain ⟨t, us, rfl, ht, -⟩ := Spells.cons_iff.mp hts
    have ht := bracket_of_shows ht
    refine Reads.peek (Reads.many_none ?_)
      (Reads.settle (primary_of_bracket ht hreads) (Reads.pure _))
    simp [unaryOp?, (bracket_of_isBracket ht).1]
  | scalar value token => exact hoperand he hts hlen hrest
  | ident name => exact hoperand he hts hlen hrest
  | range opening lower upper closing => exact hoperand he hts hlen hrest
  | arrow stages => exact hoperand he hts hlen hrest
  | call c => exact hoperand he hts hlen hrest
  | chain calls => exact hoperand he hts hlen hrest

theorem readsWritten_nested (depth : Nat) : ReadsWritten (nestedExpression depth) depth := by
  induction depth with
  | zero =>
    -- there is no text without a token
    refine ⟨fun he hts hlen _ => ?_, fun he hts hlen _ => ?_⟩
    · obtain ⟨t, us, rfl, -⟩ := operand_begins he hts
      simp at hlen
    · obtain ⟨t, us, rfl, -⟩ := marks_noParameters he hts
      simp at hlen
  | succ depth ih => exact ih.joined

theorem length_le_weight (ts : List Token) : ts.length ≤ weight ts := by
  induction ts with
  | nil => exact Nat.le_refl 0
  | cons t ts ih =>
    have hstep : weight (t :: ts) = (if t.isOperator "," then 4 else if t.isOperator "<" then 3 else 1)
        + weight ts := rfl
    rw [hstep, List.length_cons]
    split
    · omega
    · split <;> omega

theorem reads_expression (he : e.Writable false) (hts : Spells e.writtenMarks ts)
    (hlast : last.isEnd = true) : Reads expression .standard last ts [] e := by
  have hrest : Ends (scopeTable false) (follower last []) := ends_end hlast _
  refine Reads.state_bind fun passed => ?_
  rw [List.append_nil]
  have hn := readsWritten_nested (weight ts)
  have hlen := length_le_weight ts
  rw [Expr.writtenMarks, enclosed, if_pos rfl, List.cons_append] at hts
  obtain ⟨o, us, rfl, ho, hus⟩ := Spells.cons_iff.mp hts
  obtain ⟨bs, cs, rfl, hbs, hcs⟩ := Spells.append_iff.mp hus
  obtain ⟨c, rfl, hc⟩ := Spells.singleton_iff.mp hcs
  have ho := bracket_of_shows ho
  have hc := bracket_of_shows hc
  have hreads : Reads (parenthesised (nestedExpression (weight (o :: (bs ++ [c]))))) .standard last
      (o :: bs ++ [c]) [] e := by
    refine reads_parenthesised hn he ho hc hbs ?_ hrest.noArrow_ahead
    simp only [List.length_cons, List.length_append] at hlen
    omega
  refine reads_joined ?_ hrest
  refine Reads.peek (Reads.many_none ?_) (Reads.settle (primary_of_bracket ho hreads) (Reads.pure e))
  simp [unaryOp?, (bracket_of_isBracket ho).1]

end EventRules.Parse

namespace EventRules
set_option autoImplicit false

/-- Tokens that write an expression in full. -/
def Expr.written (e : Expr) : List Token := e.writtenMarks.map Mark.token

/-- Every text of an expression written in full parses as this expression, and there is such a text. -/
theorem parse_written {e : Expr} (he : e.Writable false) :
    Spells e.writtenMarks e.written ∧
      ∀ ts, Spells e.writtenMarks ts → parseExpression ts = .ok e := by
  refine ⟨Spells.tokens _, fun ts hts => ?_⟩
  obtain ⟨us, c, rfl, hc⟩ : ∃ us c, ts = us ++ [c] ∧ c.isEnd = false := by
    obtain ⟨us, cs, rfl, -, hcs⟩ := Spells.append_iff.mp hts
    obtain ⟨c, rfl, hc⟩ := Spells.singleton_iff.mp hcs
    exact ⟨us, c, rfl, not_end_of_bracket (bracket_of_shows hc)⟩
  have hparser : Parser.ofTokens (us ++ [c]) .standard =
      ⟨[], us ++ [c], Parser.endBehind (us ++ [c]), .standard⟩ := by
    simp [Parser.ofTokens, hc]
  have hlast : (Parser.endBehind (us ++ [c])).isEnd = true := by
    simp [Parser.endBehind, Token.atEnd, Token.isEnd]
  have hreads : Parse.Reads Parse.whole .standard (Parser.endBehind (us ++ [c])) (us ++ [c]) [] e := by
    refine Parse.Reads.settle (Parse.reads_expression he hts hlast) ?_
    have hend : Parse.Reads Parse.expectEnd .standard (Parser.endBehind (us ++ [c])) [] [] () :=
      Parse.Reads.sees_bind true hlast (Parse.Reads.pure ())
    exact Parse.Reads.peek hend (Parse.Reads.pure e)
  have h := hreads []
  rw [List.append_nil] at h
  rw [parseExpression, hparser, h]

/-- A parameter list, a range with a name for its lower bound, and a comparison that begins as a
shorthand does, in one text: `((x)->((<1)||(x,9]))`. -/
theorem parse_written_lookaheads :
    let name : Token := ⟨.name, "x", .nowhere⟩
    let small : Expr := .scalar (.integer 1) ⟨.integer, "1", .nowhere⟩
    let large : Expr := .scalar (.integer 9) ⟨.integer, "9", .nowhere⟩
    let bounds : Expr := .range ⟨.bracket, "(", .nowhere⟩ (.ident name) large ⟨.bracket, "]", .nowhere⟩
    let e : Expr := .lambda [name] (.binary .or (.compare .less small) bounds)
    e.Writable false ∧ e.written.map Token.text =
        ["(", "(", "x", ")", "->", "(", "(", "<", "1", ")", "||", "(", "x", ",", "9", "]", ")", ")"] ∧
      parseExpression e.written = .ok e := by
  intro name small large bounds e
  have h : e.Writable false := by
    refine ⟨by simp [name, Token.isName], nofun, ⟨rfl, by decide⟩, Or.inl rfl, rfl, ⟨rfl, by decide⟩, Or.inr rfl⟩
  exact ⟨h, rfl, (parse_written h).2 _ (parse_written h).1⟩

end EventRules
