import EventRules.Proofs.Rule.Atoms
import EventRules.Proofs.Rule.Contract
import EventRules.Rule.Parser.Program

/-!
# Where parse errors and trees point

Whatever holds of the places of all tokens holds of the place that a parse error points at, and of the
places in the tree. The tokens that stand for a shorthand have the places of its values. A tree that
is read has no empty arrow and no empty chain, so that messages about it find a token to point at.
-/

namespace EventRules
set_option autoImplicit false

open Routine

variable {P : Position → Prop}

def Token.Pinned (P : Position → Prop) (t : Token) : Prop := P t.position

/-- The tokens of an expression stand at places that satisfy `P`, and its arrows and chains are not
empty. -/
inductive Expr.Pinned (P : Position → Prop) : Expr → Prop where
  | scalar {value : Literal} {token : Token} (htoken : P token.position) : Pinned P (.scalar value token)
  | ident {name : Token} (hname : P name.position) : Pinned P (.ident name)
  | binary {op : BinaryOp} {left right : Expr} (hleft : Pinned P left) (hright : Pinned P right) :
    Pinned P (.binary op left right)
  | unary {op : UnaryOp} {operand : Expr} (hoperand : Pinned P operand) : Pinned P (.unary op operand)
  | compare {op : CompareOp} {operand : Expr} (hoperand : Pinned P operand) :
    Pinned P (.compare op operand)
  | range {opening closing : Token} {lower upper : Expr} (hopening : P opening.position)
    (hlower : Pinned P lower) (hupper : Pinned P upper) : Pinned P (.range opening lower upper closing)
  | arrow {stages : List (Stage Expr)} (hne : stages ≠ [])
    (hopening : ∀ s ∈ stages, P s.opening.position) (hbody : ∀ s ∈ stages, Pinned P s.body) :
    Pinned P (.arrow stages)
  | call {c : Call Expr} (hname : P c.position) (hargs : ∀ e ∈ c.args, Pinned P e) : Pinned P (.call c)
  | chain {calls : List (Call Expr)} (hne : calls ≠ []) (hname : ∀ c ∈ calls, P c.position)
    (hargs : ∀ c ∈ calls, ∀ e ∈ c.args, Pinned P e) : Pinned P (.chain calls)
  | lambda {params : List Token} {body : Expr} (hparams : ∀ t ∈ params, P t.position)
    (hbody : Pinned P body) : Pinned P (.lambda params body)

/-- The place of an expression is that of one of its tokens. -/
theorem Expr.Pinned.position {e : Expr} (h : e.Pinned P) : P e.position := by
  induction h with
  | scalar htoken => exact htoken
  | ident hname => exact hname
  | binary _ _ hleft => exact hleft
  | unary _ hoperand => exact hoperand
  | compare _ hoperand => exact hoperand
  | range hopening => exact hopening
  | @arrow stages hne hopening =>
    cases stages with
    | nil => exact absurd rfl hne
    | cons s stages => exact hopening s List.mem_cons_self
  | call hname => exact hname
  | @chain calls hne hname =>
    cases calls with
    | nil => exact absurd rfl hne
    | cons c calls => exact hname c List.mem_cons_self
  | @lambda params body hparams _ hbody =>
    cases params with
    | nil => exact hbody
    | cons t params => exact hparams t List.mem_cons_self

def Stage.Pinned (P : Position → Prop) (s : Stage Expr) : Prop := P s.opening.position ∧ s.body.Pinned P

def Call.Pinned (P : Position → Prop) (c : Call Expr) : Prop :=
  P c.position ∧ ∀ e ∈ c.args, e.Pinned P

inductive Statement.Pinned (P : Position → Prop) : Statement → Prop where
  | declare {name : Token} {value : Expr} (hvalue : value.Pinned P) : Pinned P (.declare name value)
  | assign {name : Token} {value : Expr} (hname : P name.position) (hvalue : value.Pinned P) :
    Pinned P (.assign name value)
  | branch {condition : Expr} {taken : List Statement} {otherwise : Option Statement}
    (hcondition : condition.Pinned P) (htaken : ∀ s ∈ taken, Pinned P s)
    (hotherwise : ∀ s ∈ otherwise, Pinned P s) : Pinned P (.branch condition taken otherwise)
  | yield {rule : Expr} (hrule : rule.Pinned P) : Pinned P (.yield rule)
  | block {statements : List Statement} (hstatements : ∀ s ∈ statements, Pinned P s) :
    Pinned P (.block statements)
  | bare {rule : Expr} (hrule : rule.Pinned P) : Pinned P (.bare rule)

/-! ### Trees -/

theorem Link.pinned_group {first : Expr} {links : List Link} (hfirst : first.Pinned P)
    (hlinks : ∀ l ∈ links, l.operand.Pinned P) : (Link.group first links).Pinned P := by
  induction first, links using Link.group.induct with
  | case1 first links h =>
    rw [Link.group_of_no_root first h]
    exact hfirst
  | case2 first links before root behind h _ ihbefore ihbehind =>
    rw [Link.group_of_root first h]
    obtain rfl := Link.eq_of_root h
    apply Expr.Pinned.binary
    · apply ihbefore hfirst
      intro l hl
      exact hlinks l (List.mem_append_left _ hl)
    · apply ihbehind
      · exact hlinks root (List.mem_append_right _ List.mem_cons_self)
      · intro l hl
        exact hlinks l (List.mem_append_right _ (List.mem_cons_of_mem _ hl))

theorem Expr.Pinned.prefixed {e : Expr} (h : e.Pinned P) (ops : List UnaryOp) :
    (ops.foldr Expr.unary e).Pinned P := by
  induction ops with
  | nil => exact h
  | cons op ops ih => exact .unary ih

/-! ### Tokens -/

/-- The tokens of an arrow stand where the values of its shorthand do. -/
theorem Token.pinned_expansion {span : List Token} (h : ∀ t ∈ span, t.Pinned P) :
    ∀ t ∈ expandShorthand span, t.Pinned P := by
  have hstage : ∀ v ∈ span, ∀ t ∈ equalityStage v, t.Pinned P := by
    intro v hv t ht
    have hplace : t.position = v.position := by
      simp only [equalityStage, List.mem_cons, List.not_mem_nil, or_false] at ht
      rcases ht with rfl | rfl | rfl | rfl <;> rfl
    unfold Pinned
    rw [hplace]
    exact h v hv
  have hvalues : ∀ v ∈ span.filter isScalar, v ∈ span := fun v hv => (List.mem_filter.mp hv).1
  unfold expandShorthand
  split
  · exact List.forall_mem_nil _
  · next value values heq =>
    rw [heq] at hvalues
    intro t ht
    rcases List.mem_append.mp ht with ht | ht
    · exact hstage value (hvalues value List.mem_cons_self) t ht
    · obtain ⟨v, hv, ht⟩ := List.mem_flatMap.mp ht
      have hmem := hvalues v (List.mem_cons_of_mem _ hv)
      rcases List.mem_cons.mp ht with rfl | ht
      · exact h v hmem
      · exact hstage v hmem t ht

namespace Parser

def Pinned (P : Position → Prop) (p : Parser) : Prop := ∀ t ∈ p.tokens, t.Pinned P

variable {p : Parser}

theorem Pinned.ahead (h : p.Pinned P) : ∀ t ∈ p.ahead, t.Pinned P := by
  intro t ht
  apply h
  unfold tokens
  exact List.mem_append_left _ (List.mem_append_right _ ht)

theorem Pinned.current (h : p.Pinned P) : p.current.Pinned P := by
  apply h
  unfold tokens Parser.current peek
  cases p.ahead with
  | nil => exact List.mem_append_right _ (List.mem_singleton_self _)
  | cons t ts => simp

theorem Pinned.expanded (h : p.Pinned P) (n : Nat) :
    Pinned P { p with ahead := Token.expandShorthand (p.ahead.take (n + 1)) ++ p.ahead.drop (n + 1) } := by
  intro t ht
  unfold tokens at ht
  rcases List.mem_append.mp ht with ht | ht
  · rcases List.mem_append.mp ht with ht | ht
    · exact h t (List.mem_append_left _ (List.mem_append_left _ ht))
    rcases List.mem_append.mp ht with ht | ht
    · apply Token.pinned_expansion _ t ht
      intro u hu
      exact h.ahead u (List.mem_of_mem_take hu)
    · exact h.ahead t (List.mem_of_mem_drop ht)
  · exact h t (List.mem_append_right _ ht)

theorem pinned_ofTokens {ts : List Token} {e : Token} (he : e.isEnd = true)
    (h : ∀ t ∈ ts ++ [e], t.Pinned P) (table : Precedence) : (ofTokens (ts ++ [e]) table).Pinned P := by
  rw [ofTokens_ended he]
  exact h

end Parser

namespace Parse

variable {α : Type} {S : α → Prop}

/-- From tokens at places that satisfy `P` an error points at such a place. -/
abbrev Points (P : Position → Prop) (S : α → Prop) (m : Parse α) : Prop :=
  m.Meets (Parser.Pinned P) (fun e => P e.position) S

/-! ### Steps -/

theorem current_points : Points P (Token.Pinned P) current := Meets.state.bind fun _ hp => .pure hp.current

theorem sees_points (test : Token → Bool) : Points P (fun _ => True) (sees test) :=
  Meets.state.bind fun _ _ => .pure trivial

theorem advance_points : Points P (Token.Pinned P) advance := by
  unfold advance
  apply current_points.bind
  intro t ht
  apply Meets.followed (Meets.change _)
  · exact .pure ht
  · intro p hp
    unfold Parser.Pinned
    rw [Parser.tokens_advanced]
    exact hp

theorem unexpected_points (expected : Expectation) : Points P S (unexpected expected : Parse α) :=
  current_points.bind fun _ ht => .fail ht

/-- A step that is refused, in front of others. -/
theorem refused {e : ParseError} (he : P e.position) : Points P (fun _ : Unit => True) (fail e) := .fail he

theorem expect_points (test : Token → Bool) (expected : Expectation) :
    Points P (Token.Pinned P) (expect test expected) := by
  unfold expect
  apply (sees_points test).bind
  intro b _
  split
  · exact advance_points
  · exact unexpected_points expected

theorem expectClosing_points (isClosing : Token → Bool) (opening : Token) :
    Points P (Token.Pinned P) (expectClosing isClosing opening) := by
  unfold expectClosing
  apply current_points.bind
  intro t ht
  split
  · exact advance_points
  · exact .fail ht

theorem expectEnd_points : Points P (fun _ => True) expectEnd := by
  unfold expectEnd
  apply (sees_points _).bind
  intro b _
  split
  · exact .pure trivial
  · exact unexpected_points _

theorem withTable_points {m : Parse α} (table : Precedence) (h : Points P S m) :
    Points P S (withTable table m) := by
  intro p hp
  exact h { p with table } hp

theorem many_points {item : Parse α} (test : Token → Bool) (h : Points P S item) :
    Points P (fun as => ∀ a ∈ as, S a) (many test item) :=
  Meets.state.bind fun _ _ => .repeatWhile h _

theorem skip_points (n : Nat) : Points P (fun _ => True) (skip n) := by
  induction n with
  | zero => exact .pure trivial
  | succ n ih => exact advance_points.followed ih

/-! ### Expressions -/

theorem literal_points {t : Token} (ht : t.Pinned P) :
    Answers (fun e => P e.position) (fun _ => True) (literalOf t) := by
  unfold literalOf
  split
  · split
    · trivial
    · exact ht
  · split
    · trivial
    · exact ht
  · trivial
  · split
    · trivial
    · exact ht
  · trivial

theorem scalar_points : Points P (Expr.Pinned P) scalar := by
  unfold scalar
  apply advance_points.bind
  intro t ht
  apply (Meets.ofExcept (literal_points ht)).bind
  intro value _
  exact .pure (.scalar ht)

theorem mem_of_lambda_params {ts ps : List Token} {n : Nat} (h : lambdaHead?.params ts = some (ps, n)) :
    ∀ t ∈ ps, t ∈ ts := by
  rcases ts with _ | ⟨name, _ | ⟨separator, rest⟩⟩
  · cases h
  · cases h
  · rw [lambdaHead?.params] at h
    split at h
    · split at h
      · obtain ⟨⟨qs, m⟩, hparams, heq⟩ := Option.map_eq_some_iff.mp h
        cases heq
        intro t ht
        rcases List.mem_cons.mp ht with rfl | ht
        · exact List.mem_cons_self
        · exact List.mem_cons_of_mem _ (List.mem_cons_of_mem _ (mem_of_lambda_params hparams t ht))
      · obtain ⟨m, -, heq⟩ := Option.map_eq_some_iff.mp h
        cases heq
        intro t ht
        rw [List.mem_singleton.mp ht]
        exact List.mem_cons_self
    · obtain ⟨m, -, heq⟩ := Option.map_eq_some_iff.mp h
      cases heq
      exact List.forall_mem_nil _

theorem mem_of_lambdaHead {ts ps : List Token} {n : Nat} (h : lambdaHead? ts = some (ps, n)) :
    ∀ t ∈ ps, t ∈ ts := by
  cases ts with
  | nil => cases h
  | cons opening ts =>
    rw [lambdaHead?] at h
    split at h
    · obtain ⟨⟨qs, m⟩, hparams, heq⟩ := Option.map_eq_some_iff.mp h
      cases heq
      intro t ht
      exact List.mem_cons_of_mem _ (mem_of_lambda_params hparams t ht)
    · cases h

section

variable {nested : Parse Expr} (hnested : Points P (Expr.Pinned P) nested)
include hnested

theorem range_points : Points P (Expr.Pinned P) (range nested) := by
  unfold range
  apply advance_points.bind
  intro opening hopening
  apply (withTable_points .arithmetic hnested).bind
  intro lower hlower
  apply (expect_points _ _).followed
  apply (withTable_points .arithmetic hnested).bind
  intro upper hupper
  apply (expectClosing_points _ opening).bind
  intro closing _
  exact .pure (.range hopening hlower hupper)

theorem parenthesised_points : Points P (Expr.Pinned P) (parenthesised nested) := by
  unfold parenthesised
  apply Meets.state.bind
  intro p hp
  split
  · next params n hhead =>
    apply (skip_points n).followed
    apply (withTable_points .standard hnested).bind
    intro body hbody
    refine .pure (.lambda ?_ hbody)
    intro t ht
    exact hp.ahead t (mem_of_lambdaHead hhead t ht)
  · split
    · exact range_points hnested
    · apply advance_points.bind
      intro opening _
      apply hnested.bind
      intro inner hinner
      apply (expectClosing_points _ opening).followed
      exact .pure hinner

theorem comparison_points (op : CompareOp) : Points P (Expr.Pinned P) (comparison nested op) := by
  have hrest : Points P (Expr.Pinned P) (do return .compare op (← withTable .arithmetic nested)) :=
    (withTable_points .arithmetic hnested).bind fun _ hoperand => .pure (.compare hoperand)
  unfold comparison
  apply advance_points.followed
  apply (sees_points _).bind
  intro b _
  split
  · exact (unexpected_points (S := fun _ => True) _).followed hrest
  · exact hrest

theorem stage_points : Points P (Stage.Pinned P) (stage nested) := by
  unfold stage
  apply (expect_points _ _).bind
  intro opening hopening
  apply (withTable_points .standard hnested).bind
  intro body hbody
  apply (expectClosing_points _ opening).followed
  exact .pure ⟨hopening, hbody⟩

theorem arrow_points : Points P (Expr.Pinned P) (arrow nested) := by
  unfold arrow
  apply (stage_points hnested).bind
  intro first hfirst
  apply (many_points _ (advance_points.followed (stage_points hnested))).bind
  intro others hothers
  have hall : ∀ s ∈ first :: others, s.Pinned P := List.forall_mem_cons.mpr ⟨hfirst, hothers⟩
  exact .pure (.arrow (List.cons_ne_nil _ _) (fun s hs => (hall s hs).1) fun s hs => (hall s hs).2)

omit hnested in
theorem strictMarker_points (name : Token) : Points P (fun _ => True) (strictMarker name) := by
  unfold strictMarker
  apply Meets.state.bind
  intro p _
  split
  · exact advance_points.followed (.pure trivial)
  · exact .pure trivial

theorem arguments_points {name : Token} (hname : name.Pinned P) (isStrict : Bool) :
    Points P (Call.Pinned P) (arguments nested name isStrict) := by
  have hargument := withTable_points .standard hnested
  unfold arguments
  apply (expect_points _ _).bind
  intro opening _
  have hclosed : ∀ args : List Expr, (∀ e ∈ args, e.Pinned P) → Points P (Call.Pinned P) (do
      let _ ← expectClosing (·.isBracket ")") opening
      return ⟨name, isStrict, args⟩) := fun args hargs =>
    (expectClosing_points _ opening).followed (.pure ⟨hname, hargs⟩)
  apply (sees_points _).bind
  intro b _
  dsimp only
  split
  · exact hclosed [] nofun
  · apply hargument.bind
    intro first hfirst
    apply (many_points _ (advance_points.followed hargument)).bind
    intro others hothers
    exact hclosed (first :: others) (List.forall_mem_cons.mpr ⟨hfirst, hothers⟩)

theorem chainElement_points : Points P (Call.Pinned P) (chainElement nested) := by
  have hcalled : ∀ name : Token, name.Pinned P → Points P (Call.Pinned P) (do
      let _ ← advance
      let isStrict ← strictMarker name
      if !(← sees (·.isBracket "(")) then fail (.chainElementNotCalled name)
      arguments nested name isStrict) := by
    intro name hname
    apply advance_points.followed
    apply (strictMarker_points name).bind
    intro isStrict _
    apply (sees_points _).bind
    intro b _
    split
    · exact (refused hname).followed (arguments_points hnested hname isStrict)
    · exact arguments_points hnested hname isStrict
  unfold chainElement
  apply advance_points.followed
  apply current_points.bind
  intro name hname
  split
  · exact (refused hname).followed (hcalled name hname)
  · exact hcalled name hname

theorem named_points : Points P (Expr.Pinned P) (named nested) := by
  unfold named
  apply advance_points.bind
  intro name hname
  apply (strictMarker_points name).bind
  intro isStrict _
  apply (sees_points _).bind
  intro b _
  split
  · apply (arguments_points hnested hname isStrict).bind
    intro first hfirst
    apply (many_points _ (chainElement_points hnested)).bind
    intro others hothers
    apply Meets.pure
    split
    · exact .call hfirst.1 hfirst.2
    · have hall : ∀ c ∈ first :: others, c.Pinned P := List.forall_mem_cons.mpr ⟨hfirst, hothers⟩
      exact .chain (List.cons_ne_nil _ _) (fun c hc => (hall c hc).1) fun c hc => (hall c hc).2
  · exact .pure (.ident hname)

theorem symbolic_points (token : Token) : Points P (Expr.Pinned P) (symbolic nested token) := by
  unfold symbolic
  apply Meets.state.bind
  intro p _
  split
  · next n _ =>
    have hexpand : Points P (fun _ => True) (expand n) := .change fun p hp => hp.expanded n
    exact hexpand.followed (arrow_points hnested)
  · split
    · exact comparison_points hnested _
    · exact unexpected_points _

theorem primary_points : Points P (Expr.Pinned P) (primary nested) := by
  unfold primary
  apply current_points.bind
  intro token _
  split
  · split
    · exact range_points hnested
    · split
      · exact parenthesised_points hnested
      · split
        · exact arrow_points hnested
        · exact unexpected_points _
  · exact symbolic_points hnested token
  · exact named_points hnested
  · exact unexpected_points _
  · exact unexpected_points _
  · exact scalar_points

theorem operand_points : Points P (Expr.Pinned P) (operand nested) := by
  unfold operand
  apply (many_points _ advance_points).bind
  intro symbols _
  apply (primary_points hnested).bind
  intro inner hinner
  exact .pure (hinner.prefixed _)

theorem link_points : Points P (fun l => l.operand.Pinned P) (link nested) := by
  unfold link
  apply Meets.state.bind
  intro p _
  split
  · exact unexpected_points _
  · apply advance_points.followed
    apply (operand_points hnested).bind
    intro right hright
    exact .pure hright

theorem joined_points : Points P (Expr.Pinned P) (joined nested) := by
  unfold joined
  apply (operand_points hnested).bind
  intro first hfirst
  apply Meets.state.bind
  intro p _
  apply (Meets.repeatWhile (link_points hnested) _).bind
  intro links hlinks
  exact .pure (Link.pinned_group hfirst hlinks)

end

/-- Each depth passes on what the one below it satisfies. -/
theorem nestedExpression_points (depth : Nat) : Points P (Expr.Pinned P) (nestedExpression depth) := by
  induction depth with
  | zero => exact unexpected_points _
  | succ depth ih => exact joined_points ih

theorem expression_points : Points P (Expr.Pinned P) expression :=
  Meets.state.bind fun _ _ => nestedExpression_points _

/-! ### Programs -/

section

variable {nested : Parse Statement} (hnested : Points P (Statement.Pinned P) nested)
include hnested

theorem statementsUpTo_points (stop : Token → Bool) (n : Nat) :
    Points P (fun ss => ∀ s ∈ ss, s.Pinned P) (statementsUpTo stop nested n) := by
  induction n with
  | zero => exact .pure nofun
  | succ n ih =>
    unfold statementsUpTo
    apply current_points.bind
    intro t _
    split
    · exact .pure nofun
    · apply hnested.bind
      intro s hs
      apply (many_points _ advance_points).bind
      intro separators _
      split
      · exact .pure (List.forall_mem_cons.mpr ⟨hs, nofun⟩)
      · apply ih.bind
        intro ss hss
        exact .pure (List.forall_mem_cons.mpr ⟨hs, hss⟩)

theorem statements_points (stop : Token → Bool) :
    Points P (fun ss => ∀ s ∈ ss, s.Pinned P) (statements stop nested) :=
  Meets.state.bind fun _ _ => statementsUpTo_points hnested stop _

theorem block_points : Points P (fun ss => ∀ s ∈ ss, s.Pinned P) (block nested) := by
  unfold block
  apply (expect_points _ _).bind
  intro opening _
  apply (statements_points hnested _).bind
  intro body hbody
  apply (expectClosing_points _ opening).followed
  exact .pure hbody

theorem branch_points : Points P (Statement.Pinned P) (branch nested) := by
  unfold branch
  apply advance_points.followed
  apply (expect_points _ _).bind
  intro opening _
  apply (withTable_points .standard expression_points).bind
  intro condition hcondition
  apply (expectClosing_points _ opening).followed
  apply (block_points hnested).bind
  intro taken htaken
  have hended : ∀ other : Statement, other.Pinned P →
      Points P (Statement.Pinned P) (pure (.branch condition taken (some other))) := by
    intro other hother
    apply Meets.pure
    apply Statement.Pinned.branch hcondition htaken
    intro s hs
    cases hs
    exact hother
  apply (sees_points _).bind
  intro b _
  dsimp only
  split
  · apply advance_points.followed
    apply (sees_points _).bind
    intro b _
    split
    · exact hnested.bind hended
    · exact ((block_points hnested).map fun ss hss => .block hss).bind hended
  · exact .pure (.branch hcondition htaken nofun)

theorem statement_points : Points P (Statement.Pinned P) (statement nested) := by
  unfold statement
  apply Meets.state.bind
  intro p hp
  dsimp only
  split
  · apply advance_points.followed
    apply (expect_points _ _).bind
    intro name _
    apply (expect_points _ _).followed
    apply expression_points.bind
    intro value hvalue
    exact .pure (.declare hvalue)
  split
  · exact branch_points hnested
  split
  · apply advance_points.followed
    apply expression_points.bind
    intro rule hrule
    exact .pure (.yield hrule)
  split
  · apply advance_points.bind
    intro name hname
    apply advance_points.followed
    apply expression_points.bind
    intro value hvalue
    exact .pure (.assign hname hvalue)
  split
  · exact .fail hp.current
  · apply expression_points.bind
    intro rule hrule
    exact .pure (.bare hrule)

end

theorem nestedStatement_points (depth : Nat) : Points P (Statement.Pinned P) (nestedStatement depth) := by
  induction depth with
  | zero => exact unexpected_points _
  | succ depth ih => exact statement_points ih

theorem program_points : Points P (fun ss => ∀ s ∈ ss, s.Pinned P) program := by
  unfold program
  apply Meets.state.bind
  intro p _
  apply (statements_points (nestedStatement_points _) _).bind
  intro body hbody
  apply expectEnd_points.followed
  exact .pure hbody

end Parse

/-- A program whose tokens, ended by an end token, stand at places that satisfy `P`. -/
theorem parseProgram_points {ts : List Token} {e : Token} (he : e.isEnd = true)
    (h : ∀ t ∈ ts ++ [e], t.Pinned P) :
    Answers (fun error => P error.position) (fun ss => ∀ s ∈ ss, s.Pinned P) (parseProgram (ts ++ [e])) :=
  (Parse.program_points _ (Parser.pinned_ofTokens he h .standard)).2

end EventRules
