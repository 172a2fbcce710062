import EventRules.Proofs.Rule.Lookahead
import EventRules.Proofs.Rule.Reading

/-!
# The constructs of the grammar on expressions written in full

`ReadsWritten nested n` says of the parser of nested expressions that it reads back every expression
whose text has at most `n` tokens: as an operand, whatever token follows it that does not go on with
it, and bare in front of a closing parenthesis. Under this assumption each construct of the grammar
reads its own texts, also those that are one token longer.
-/

namespace EventRules.Parse
set_option autoImplicit false

open Routine

/-- The operators in force where an expression stands. -/
def scopeTable (bounded : Bool) : Precedence := if bounded then .arithmetic else .standard

/-- A token that does not go on with the operand before it. -/
structure Delimits (t : Token) : Prop where
  no_arrow : t.isOperator "->" = false
  no_point : t.isOperator "." = false
  no_mark : t.isOperator "!" = false
  no_call : t.isBracket "(" = false

/-- A token that ends an expression: no operator of the table either. -/
structure Ends (table : Precedence) (t : Token) : Prop extends Delimits t where
  no_rank : t.kind = .operator → table.rank? t.text = none

theorem ends_bracket {t : Token} {s : String} (h : t.isBracket s = true) (hs : (s == "(") = false)
    (table : Precedence) : Ends table t := by
  obtain ⟨hk, rfl⟩ := bracket_of_isBracket h
  have hop := not_operator_of_bracket hk
  exact ⟨⟨hop _, hop _, hop _, by simp [Token.isBracket, hs]⟩, fun ho => by simp [hk] at ho⟩

theorem ends_comma {t : Token} (h : t.isOperator "," = true) (bounded : Bool) :
    Ends (scopeTable bounded) t := by
  obtain ⟨hk, ht⟩ := operator_of_isOperator h
  refine ⟨⟨?_, ?_, ?_, not_bracket_of_operator hk _⟩, fun _ => ?_⟩
  · simp [Token.isOperator, ht]
  · simp [Token.isOperator, ht]
  · simp [Token.isOperator, ht]
  · rw [ht]
    cases bounded <;> decide

theorem ends_end {t : Token} (h : t.isEnd = true) (table : Precedence) : Ends table t := by
  have hk : t.kind = .endOfInput := by simpa [Token.isEnd] using h
  refine ⟨⟨?_, ?_, ?_, ?_⟩, fun ho => by simp [hk] at ho⟩ <;>
    simp [Token.isOperator, Token.isBracket, hk]

theorem delimits_binary {t : Token} {op : BinaryOp} (hk : t.kind = .operator)
    (ht : t.text = op.symbol) : Delimits t := by
  have hs : (op.symbol == "->") = false ∧ (op.symbol == ".") = false ∧ (op.symbol == "!") = false := by
    cases op with
    | compare c => cases c <;> decide
    | _ => decide
  refine ⟨?_, ?_, ?_, not_bracket_of_operator hk _⟩ <;> simp [Token.isOperator, ht, hs]

theorem rank_binary {op : BinaryOp} {bounded : Bool} (h : bounded = true → op.isArithmetic = true) :
    ((scopeTable bounded).rank? op.symbol).isSome = true := by
  cases bounded with
  | false =>
    cases op with
    | compare c => cases c <;> decide
    | _ => decide
  | true =>
    have h := h rfl
    cases op <;> first | decide | simp [BinaryOp.isArithmetic] at h

theorem Delimits.noArrow_ahead {last : Token} {rest : List Token} (h : Delimits (follower last rest)) :
    NoArrow rest := by
  intro t ht
  cases rest with
  | nil => simp at ht
  | cons u us =>
    obtain rfl : u = t := by simpa using ht
    exact h.no_arrow

variable {nested : Parse Expr} {n : Nat} {bounded : Bool} {table : Precedence} {last : Token}
  {ts rest : List Token} {e : Expr}

/-- What is known of the parser of the expressions inside another one. -/
structure ReadsWritten (nested : Parse Expr) (n : Nat) : Prop where
  operand : ∀ {e : Expr} {bounded : Bool} {last : Token} {ts rest : List Token},
    e.Writable bounded → Spells e.operandMarks ts → ts.length ≤ n →
    Ends (scopeTable bounded) (follower last rest) →
    Reads nested (scopeTable bounded) last ts rest e
  bare : ∀ {e : Expr} {bounded : Bool} {last : Token} {ts rest : List Token} {closing : Token},
    e.Writable bounded → Spells e.marks ts → ts.length ≤ n → closing.isBracket ")" = true →
    Reads nested (scopeTable bounded) last ts (closing :: rest) e

/-! ### Single tokens -/

theorem reads_scalar {value : Literal} {token : Token} (ht : token.isScalar = true)
    (hv : literalOf token = .ok value) :
    Reads scalar table last [token] rest (.scalar value token) := by
  have hend : token.isEnd = false := by
    cases hk : token.kind <;> simp [Token.isScalar, Token.isEnd, hk] at ht ⊢
  refine Reads.settle (Reads.advance hend) ?_
  exact Reads.peek (Reads.ofExcept hv) (Reads.pure _)

theorem reads_no_mark (name : Token) (h : (follower last rest).isOperator "!" = false) :
    Reads (strictMarker name) table last [] rest false := by
  refine Reads.state_bind fun passed => ?_
  simp only [List.nil_append, current_eq_follower, h, Bool.false_and, Bool.false_eq_true, if_false]
  exact Reads.pure false

theorem reads_mark {name mark opening : Token} (h : mark.isOperator "!" = true)
    (hplace : mark.position.offset = name.endOffset) (ho : opening.isBracket "(" = true) :
    Reads (strictMarker name) table last [mark] (opening :: rest) true := by
  refine Reads.state_bind fun passed => ?_
  have hcurrent : Parser.current ⟨passed, mark :: opening :: rest, last, table⟩ = mark := rfl
  have hpeek : Parser.peek ⟨passed, mark :: opening :: rest, last, table⟩ 1 = opening := rfl
  simp only [List.singleton_append, hcurrent, hpeek, h, hplace, ho, beq_self_eq_true,
    Bool.and_self, if_true]
  refine Reads.settle (Reads.advance ?_) (Reads.pure true)
  exact not_end_of_operator (operator_of_isOperator h).1

theorem reads_ident {name : Token} (hname : name.isName = true)
    (hrest : Delimits (follower last rest)) :
    Reads (named nested) table last [name] rest (.ident name) := by
  refine Reads.settle (Reads.advance (not_end_of_name hname)) ?_
  refine Reads.peek (reads_no_mark name hrest.no_mark) ?_
  exact Reads.sees_bind false hrest.no_call (Reads.pure _)

/-! ### Brackets -/

theorem reads_range (hn : ReadsWritten nested n) {opening closing : Token} {lower upper : Expr}
    (hw : (Expr.range opening lower upper closing).Writable bounded)
    (hts : Spells (Expr.range opening lower upper closing).operandMarks ts) (hlen : ts.length ≤ n + 1) :
    Reads (range nested) table last ts rest (.range opening lower upper closing) := by
  obtain ⟨ho, hl, hu, hc⟩ := hw
  rw [Expr.operandMarks_range, List.append_assoc, List.cons_append] at hts
  obtain ⟨o, bs, rfl, rfl, hbs⟩ := Spells.cons_iff.mp hts
  obtain ⟨ls, vs, rfl, hls, hvs⟩ := Spells.append_iff.mp hbs
  obtain ⟨comma, ws, rfl, hcomma, hws⟩ := Spells.cons_iff.mp hvs
  obtain ⟨us, cs, rfl, hus, hcs⟩ := Spells.append_iff.mp hws
  obtain ⟨c, rfl, rfl⟩ := Spells.singleton_iff.mp hcs
  have hcomma := operator_of_shows hcomma
  have hoend : o.isEnd = false := by
    rcases ho with ho | ho <;> exact not_end_of_bracket ho
  have hcend : c.isEnd = false := by
    rcases hc with hc | hc <;> exact not_end_of_bracket hc
  have hends : Ends (scopeTable true) c := by
    rcases hc with hc | hc <;> exact ends_bracket hc (by decide) _
  simp only [List.length_cons, List.length_append] at hlen
  refine Reads.token_bind (Reads.advance hoend) ?_
  refine Reads.bind (Reads.withTable (hn.operand hl hls (by omega) (ends_comma hcomma true))) ?_
  have hpass : ∀ rest, Reads (expectOperator ",") table last [comma] rest comma := fun _ =>
    Reads.expect hcomma (not_end_of_operator (operator_of_isOperator hcomma).1)
  refine Reads.token_bind (hpass _) ?_
  refine Reads.bind (Reads.withTable (hn.operand hu hus (by omega) hends)) ?_
  exact Reads.settle (Reads.expectClosing (by rcases hc with hc | hc <;> simp [hc]) hcend)
    (Reads.pure _)

theorem reads_stage (hn : ReadsWritten nested n) {s : Stage Expr}
    (ho : s.opening.isBracket "\x7b" = true) (hw : s.body.Writable false)
    (hts : Spells (Expr.bracedMarks s) ts) (hlen : ts.length ≤ n + 1) :
    Reads (stage nested) table last ts rest s := by
  rw [Expr.bracedMarks, List.cons_append] at hts
  obtain ⟨o, us, rfl, rfl, hus⟩ := Spells.cons_iff.mp hts
  obtain ⟨bs, cs, rfl, hbs, hcs⟩ := Spells.append_iff.mp hus
  obtain ⟨c, rfl, hc⟩ := Spells.singleton_iff.mp hcs
  have hc := bracket_of_shows hc
  simp only [List.length_cons, List.length_append] at hlen
  refine Reads.token_bind (Reads.expect ho (not_end_of_bracket ho)) ?_
  refine Reads.bind (Reads.withTable (hn.operand hw hbs (by omega) ?_)) ?_
  · exact ends_bracket hc (by decide) _
  · exact Reads.settle (Reads.expectClosing hc (not_end_of_bracket hc)) (Reads.pure _)

theorem reads_arrow (hn : ReadsWritten nested n) {stages : List (Stage Expr)}
    (hw : (Expr.arrow stages).Writable bounded) (hts : Spells (Expr.arrow stages).operandMarks ts)
    (hlen : ts.length ≤ n + 1) (hrest : Delimits (follower last rest)) :
    Reads (arrow nested) table last ts rest (.arrow stages) := by
  obtain ⟨hne, hw⟩ := hw
  obtain ⟨s, stages, rfl⟩ := List.exists_cons_of_ne_nil hne
  have hw := Expr.stagesWritable_iff.mp hw
  rw [Expr.operandMarks_arrow] at hts
  obtain ⟨us, vs, rfl, hus, hvs⟩ := Spells.append_iff.mp hts
  obtain ⟨pieces, rfl, rfl, hpieces⟩ := Spells.flatMap hvs
  rw [List.length_append] at hlen
  have hfirst := hw s List.mem_cons_self
  refine Reads.bind (reads_stage hn hfirst.1 hfirst.2 hus (by omega)) ?_
  refine Reads.settle (Reads.many (fun _ => True) ?_ trivial hrest.no_arrow) (Reads.pure _)
  intro piece hp
  obtain ⟨hle, link, ws, heq, hlink, hws⟩ := hpieces piece hp
  refine ⟨link, ws, heq, hlink, trivial, fun rest _ => ?_⟩
  rw [heq] at hle ⊢
  rw [List.length_cons] at hle
  have hstage := hw piece.2 (List.mem_cons_of_mem s (List.mem_map_of_mem hp))
  refine Reads.token_bind (Reads.advance ?_) ?_
  · exact not_end_of_operator (operator_of_isOperator hlink).1
  · exact reads_stage hn hstage.1 hstage.2 hws (by omega)

/-! ### Calls -/

/-- The marks of an argument list with its parentheses. -/
def argumentListMarks (args : List Expr) : List Mark :=
  .br "(" :: separated "," (args.map Expr.operandMarks) ++ [.br ")"]

/-- Behind an argument stands the comma of the next one, or what closes the list. -/
theorem follower_ends {pieces : List (List Token × Expr)} {c : Token}
    (hpieces : ∀ p ∈ pieces, ∃ s us, p.1 = s :: us ∧ s.isOperator "," = true)
    (hends : Ends (scopeTable false) c) :
    Ends (scopeTable false) (follower last (pieces.flatMap Prod.fst ++ [c] ++ rest)) := by
  cases pieces with
  | nil => exact hends
  | cons p ps =>
    obtain ⟨s, us, heq, hs⟩ := hpieces p List.mem_cons_self
    rw [List.flatMap_cons, heq]
    exact ends_comma hs false

theorem reads_arguments (hn : ReadsWritten nested n) {name : Token} {isStrict : Bool} {args : List Expr}
    (hw : ∀ e ∈ args, e.Writable false) (hts : Spells (argumentListMarks args) ts)
    (hlen : ts.length ≤ n + 1) :
    Reads (arguments nested name isStrict) table last ts rest ⟨name, isStrict, args⟩ := by
  rw [argumentListMarks, List.cons_append] at hts
  obtain ⟨o, us, rfl, ho, hus⟩ := Spells.cons_iff.mp hts
  obtain ⟨bs, cs, rfl, hbs, hcs⟩ := Spells.append_iff.mp hus
  obtain ⟨c, rfl, hc⟩ := Spells.singleton_iff.mp hcs
  have ho := bracket_of_shows ho
  have hc := bracket_of_shows hc
  have hends : Ends (scopeTable false) c := ends_bracket hc (by decide) _
  simp only [List.length_cons, List.length_append] at hlen
  refine Reads.token_bind (Reads.expect ho (not_end_of_bracket ho)) ?_
  have hclose : Reads (do
      let _ ← expectClosing (·.isBracket ")") o
      return (⟨name, isStrict, args⟩ : Call Expr)) table last [c] rest ⟨name, isStrict, args⟩ :=
    Reads.settle (Reads.expectClosing hc (not_end_of_bracket hc)) (Reads.pure _)
  cases args with
  | nil =>
    cases hbs
    refine Reads.sees_bind true hc ?_
    exact Reads.peek (Reads.pure []) hclose
  | cons e es =>
    rw [List.map_cons, separated] at hbs
    obtain ⟨as, vs, rfl, has, hvs⟩ := Spells.append_iff.mp hbs
    obtain ⟨pieces, rfl, rfl, hpieces⟩ := Spells.flatMap hvs
    have hfirst := hw e List.mem_cons_self
    obtain ⟨t, us, rfl, hbegin⟩ := operand_begins hfirst has
    rw [List.length_append] at hlen
    refine Reads.sees_bind false (beginsOperand_kind hbegin).2.2 ?_
    have hfollows :
        Ends (scopeTable false) (follower last (pieces.flatMap Prod.fst ++ [c] ++ rest)) := by
      refine follower_ends (fun p hp => ?_) hends
      obtain ⟨-, s, us, heq, hs, -⟩ := hpieces p hp
      exact ⟨s, us, heq, hs⟩
    have hargument : ∀ {e : Expr} {ts rest : List Token}, e.Writable false → Spells e.operandMarks ts →
        ts.length ≤ n → Ends (scopeTable false) (follower last rest) →
          Reads (withTable .standard nested) table last ts rest e :=
      fun hw hts hlen hrest => Reads.withTable (hn.operand hw hts hlen hrest)
    rw [List.append_assoc]
    refine Reads.bind (hargument hfirst has (by omega) hfollows) ?_
    refine Reads.bind (Reads.many (Ends (scopeTable false)) ?_ hends ?_)
      (Reads.peek (Reads.pure _) hclose)
    · intro p hp
      obtain ⟨hle, s, us, heq, hs, hus⟩ := hpieces p hp
      refine ⟨s, us, heq, hs, ends_comma hs false, fun rest hrest => ?_⟩
      rw [heq] at hle ⊢
      rw [List.length_cons] at hle
      have hp := hw p.2 (List.mem_cons_of_mem e (List.mem_map_of_mem hp))
      refine Reads.token_bind (Reads.advance ?_) (hargument hp hus (by omega) hrest)
      exact not_end_of_operator (operator_of_isOperator hs).1
    · exact not_operator_of_bracket (bracket_of_isBracket hc).1 _

/-- The text of a call: its name, the sign if it is strict, and the argument list. -/
theorem called_tokens {c : Call Expr} (hts : Spells (Expr.calledMarks c) ts) (table : Precedence)
    (last : Token) :
    ∃ ms as, ts = c.name :: (ms ++ as) ∧ Spells (argumentListMarks c.args) as ∧
      (∀ rest, (follower last (as ++ rest)).isBracket "(" = true) ∧
        ∀ rest, Reads (strictMarker c.name) table last ms (as ++ rest) c.strict := by
  obtain ⟨name, isStrict, args⟩ := c
  have hsplit : Expr.calledMarks ⟨name, isStrict, args⟩ =
      .own name :: ((if isStrict then [.strict name] else []) ++ argumentListMarks args) := by
    simp [Expr.calledMarks, callMarks, argumentListMarks]
  rw [hsplit] at hts
  obtain ⟨t, us, rfl, rfl, hus⟩ := Spells.cons_iff.mp hts
  obtain ⟨ms, as, rfl, hms, has⟩ := Spells.append_iff.mp hus
  obtain ⟨o, vs, rfl, ho, -⟩ := Spells.cons_iff.mp has
  have ho := bracket_of_shows ho
  refine ⟨ms, o :: vs, rfl, has, fun rest => ho, fun rest => ?_⟩
  cases isStrict with
  | false =>
    cases hms
    refine reads_no_mark t ?_
    exact not_operator_of_bracket (bracket_of_isBracket ho).1 _
  | true =>
    obtain ⟨m, rfl, hm, hplace⟩ := Spells.singleton_iff.mp hms
    exact reads_mark hm hplace ho

theorem reads_chainElement (hn : ReadsWritten nested n) {c : Call Expr} {point : Token}
    (hp : point.isOperator "." = true) (hname : c.name.isName = true)
    (hw : ∀ e ∈ c.args, e.Writable false) (hts : Spells (Expr.calledMarks c) ts)
    (hlen : ts.length ≤ n + 1) :
    Reads (chainElement nested) table last (point :: ts) rest c := by
  obtain ⟨ms, as, rfl, has, hopens, hmark⟩ := called_tokens hts table last
  simp only [List.length_cons, List.length_append] at hlen
  refine Reads.token_bind (Reads.advance ?_) ?_
  · exact not_end_of_operator (operator_of_isOperator hp).1
  refine Reads.peek Reads.current ?_
  simp only [List.cons_append, follower_cons, hname, Bool.not_true, Bool.false_eq_true, if_false]
  refine Reads.token_bind (Reads.advance (not_end_of_name hname)) ?_
  refine Reads.bind (hmark rest) ?_
  refine Reads.sees_bind true (hopens rest) ?_
  exact reads_arguments hn hw has (by omega)

theorem reads_calls (hn : ReadsWritten nested n) {c : Call Expr} {calls : List (Call Expr)}
    (hw : ∀ d ∈ c :: calls, d.name.isName = true ∧ ∀ e ∈ d.args, e.Writable false)
    (hts : Spells (Expr.calledMarks c ++ (calls.map Expr.calledMarks).flatMap (.op "." :: ·)) ts)
    (hlen : ts.length ≤ n + 1) (hrest : Delimits (follower last rest)) :
    Reads (named nested) table last ts rest
      (if calls.isEmpty then .call c else .chain (c :: calls)) := by
  obtain ⟨us, vs, rfl, hus, hvs⟩ := Spells.append_iff.mp hts
  obtain ⟨pieces, rfl, rfl, hpieces⟩ := Spells.flatMap hvs
  obtain ⟨ms, as, rfl, has, hopens, hmark⟩ := called_tokens hus table last
  obtain ⟨hname, hargs⟩ := hw c List.mem_cons_self
  simp only [List.cons_append, List.length_cons, List.length_append] at hlen
  rw [List.cons_append, List.append_assoc]
  refine Reads.token_bind (Reads.advance (not_end_of_name hname)) ?_
  have hmark := hmark (pieces.flatMap Prod.fst ++ rest)
  have hopens := hopens (pieces.flatMap Prod.fst ++ rest)
  rw [← List.append_assoc] at hmark hopens
  refine Reads.bind hmark ?_
  refine Reads.sees_bind true hopens ?_
  refine Reads.bind (reads_arguments hn hargs has (by omega)) ?_
  refine Reads.settle (Reads.many (fun _ => True) ?_ trivial hrest.no_point) (Reads.pure _)
  intro piece hp
  obtain ⟨hle, point, ws, heq, hpoint, hws⟩ := hpieces piece hp
  refine ⟨point, ws, heq, hpoint, trivial, fun rest _ => ?_⟩
  rw [heq] at hle ⊢
  rw [List.length_cons] at hle
  obtain ⟨hname, hargs⟩ := hw piece.2 (List.mem_cons_of_mem c (List.mem_map_of_mem hp))
  exact reads_chainElement hn hpoint hname hargs hws (by omega)

/-! ### Parentheses and comparisons -/

theorem reads_parenthesised (hn : ReadsWritten nested n) (he : e.Writable bounded)
    {opening closing : Token} (ho : opening.isBracket "(" = true) (hc : closing.isBracket ")" = true)
    (hts : Spells e.marks ts) (hlen : ts.length ≤ n) (hrest : NoArrow rest) :
    Reads (parenthesised nested) (scopeTable bounded) last (opening :: ts ++ [closing]) rest e := by
  refine Reads.state_bind fun passed => ?_
  have hhead := lambdaHead_parenthesised he hts hc opening hrest
  have hrange := startsRange_parenthesised he hts ho hc rest
  simp only [List.append_assoc, List.singleton_append, hhead, hrange, Bool.false_eq_true, if_false]
  refine Reads.token_bind (Reads.advance (not_end_of_bracket ho)) ?_
  refine Reads.bind (hn.bare he hts hlen hc) ?_
  exact Reads.settle (Reads.expectClosing hc (not_end_of_bracket hc)) (Reads.pure e)

theorem reads_parenthesised_range (hn : ReadsWritten nested n) {opening closing : Token}
    {lower upper : Expr} (hw : (Expr.range opening lower upper closing).Writable bounded)
    (ho : opening.isBracket "(" = true)
    (hts : Spells (Expr.range opening lower upper closing).operandMarks ts) (hlen : ts.length ≤ n + 1)
    (hrest : NoArrow rest) :
    Reads (parenthesised nested) table last ts rest (.range opening lower upper closing) := by
  have hreads : Reads (range nested) table last ts rest (.range opening lower upper closing) :=
    reads_range hn hw hts hlen
  obtain ⟨-, hl, hu, hc⟩ := hw
  rw [Expr.operandMarks_range, List.append_assoc, List.cons_append] at hts
  obtain ⟨o, bs, rfl, rfl, hbs⟩ := Spells.cons_iff.mp hts
  obtain ⟨ls, vs, rfl, hls, hvs⟩ := Spells.append_iff.mp hbs
  obtain ⟨comma, ws, rfl, hcomma, hws⟩ := Spells.cons_iff.mp hvs
  obtain ⟨us, cs, rfl, hus, hcs⟩ := Spells.append_iff.mp hws
  obtain ⟨c, rfl, rfl⟩ := Spells.singleton_iff.mp hcs
  have hcomma := operator_of_shows hcomma
  have hck : c.kind = .bracket := by
    rcases hc with hc | hc <;> exact (bracket_of_isBracket hc).1
  have hhead := lambdaHead_bounds (operand_noParameters hl hls) (operand_noParameters hu hus)
    hcomma hck o hrest
  have hrange := startsRange_bounds hl hu hls hus ho hcomma hc rest
  refine Reads.state_bind fun passed => ?_
  simp only [List.append_assoc, List.cons_append, List.nil_append] at hhead hrange ⊢
  simpa only [hhead, hrange, if_true] using hreads

theorem parameters_not_end {params : List Token} (hp : ∀ p ∈ params, p.isName = true)
    (hts : Spells (.br "(" :: parameterMarks params) ts) : ∀ t ∈ ts, t.isEnd = false := by
  have hmarks : ∀ m ∈ Mark.br "(" :: parameterMarks params, ∀ t, m.Shows t → t.isEnd = false := by
    have hseparated : ∀ m ∈ separated "," (params.map fun p => [Mark.own p]),
        m = .op "," ∨ ∃ p ∈ params, m = .own p := by
      intro m hm
      cases params with
      | nil => simp [separated] at hm
      | cons p ps =>
        simp only [List.map_cons, separated, List.singleton_append, List.mem_cons, List.mem_flatMap,
          List.mem_map, exists_exists_and_eq_and] at hm
        rcases hm with rfl | ⟨q, hq, rfl | rfl | hm⟩
        · exact Or.inr ⟨p, List.mem_cons_self, rfl⟩
        · exact Or.inl rfl
        · exact Or.inr ⟨q, List.mem_cons_of_mem p hq, rfl⟩
        · simp at hm
    intro m hm t ht
    simp only [parameterMarks, List.mem_cons, List.mem_append, List.not_mem_nil, or_false] at hm
    rcases hm with rfl | hm | rfl | rfl
    · exact not_end_of_bracket (bracket_of_shows ht)
    · rcases hseparated m hm with rfl | ⟨p, hmem, rfl⟩
      · exact not_end_of_operator ht.1
      · exact ht ▸ not_end_of_name (hp p hmem)
    · exact not_end_of_bracket (bracket_of_shows ht)
    · exact not_end_of_operator ht.1
  clear hp
  generalize Mark.br "(" :: parameterMarks params = ms at hts hmarks
  induction hts with
  | nil => simp
  | @cons m t ms ts ht _ ih =>
    intro u hu
    rcases List.mem_cons.mp hu with rfl | hu
    · exact hmarks m List.mem_cons_self u ht
    · exact ih (fun m hm => hmarks m (List.mem_cons_of_mem _ hm)) u hu

theorem reads_lambda (hn : ReadsWritten nested n) {params : List Token} {body : Expr}
    (hw : (Expr.lambda params body).Writable bounded) (hts : Spells (Expr.lambda params body).marks ts)
    (hlen : ts.length ≤ n + 1) {closing : Token} (hc : closing.isBracket ")" = true) :
    Reads (parenthesised nested) table last ts (closing :: rest) (.lambda params body) := by
  obtain ⟨hparams, hbody⟩ := hw
  have hsplit : (Expr.lambda params body).marks =
      (.br "(" :: parameterMarks params) ++ body.operandMarks := by
    simp [Expr.marks, Expr.operandMarks, parameterMarks]
  rw [hsplit] at hts
  obtain ⟨hs, bs, rfl, hhs, hbs⟩ := Spells.append_iff.mp hts
  have hhead := lambdaHead_of_spelled hparams hhs (bs ++ closing :: rest)
  have hpos : 0 < hs.length := by
    obtain ⟨t, us, rfl, -⟩ := Spells.cons_iff.mp hhs
    exact Nat.zero_lt_succ _
  rw [List.length_append] at hlen
  refine Reads.state_bind fun passed => ?_
  simp only [List.append_assoc, hhead]
  refine Reads.bind (Reads.skip rfl (parameters_not_end hparams hhs)) ?_
  refine Reads.settle (Reads.withTable (hn.operand hbody hbs (by omega) ?_)) (Reads.pure _)
  exact ends_bracket hc (by decide) _

theorem reads_comparison (hn : ReadsWritten nested n) {op : CompareOp} {operand : Expr}
    (hw : operand.Writable true) (hts : Spells (Expr.compare op operand).marks ts)
    (hlen : ts.length ≤ n + 1) {closing : Token} {s : String} (hc : closing.isBracket s = true)
    (hs : (s == "(") = false) :
    Reads (primary nested) table last ts (closing :: rest) (.compare op operand) := by
  obtain ⟨t, us, rfl, ⟨hk, ht⟩, hus⟩ := Spells.cons_iff.mp hts
  have hus : Spells operand.operandMarks us := hus
  obtain ⟨u, vs, rfl, hbegin⟩ := operand_begins hw hus
  have hend : u.isEnd = false := not_end_of_kind (beginsOperand_kind hbegin).2.1
  have hshorthand := shorthandEnd_eq_none hbegin (bracket_of_isBracket hc).1 t rest
  have hsymbol : CompareOp.ofSymbol? t.text = some op := by
    rw [ht]
    exact CompareOp.ofSymbol_symbol op
  rw [List.length_cons] at hlen
  refine Reads.peek Reads.current ?_
  simp only [List.cons_append, follower_cons, hk]
  refine Reads.state_bind fun passed => ?_
  simp only [List.cons_append] at hshorthand ⊢
  simp only [hshorthand, hsymbol]
  refine Reads.token_bind (Reads.advance (not_end_of_operator hk)) ?_
  refine Reads.sees_bind false hend ?_
  refine Reads.settle (Reads.withTable (hn.operand hw hus (by omega) ?_)) (Reads.pure _)
  exact ends_bracket hc hs _

end EventRules.Parse
