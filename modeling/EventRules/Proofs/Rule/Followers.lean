import EventRules.Proofs.Rule.Following

/-!
# The constructs of the grammar beside each other

Each construct follows itself when the parsers of nested expressions do, by the order of its tokens.
-/

namespace EventRules
set_option autoImplicit false

open Token Routine Parse

namespace Respelling

variable {w : Respelling} {lost kept : Parser → Prop} {nested nested' : Parse Expr} {n : Nat}
  {p q : Parser}

/-- What is known of the parsers of expressions inside others. -/
def Nested (w : Respelling) (nested nested' : Parse Expr) : Prop :=
  ∀ p q, w.Beside p q → opensArguments p.passed = false →
    w.Follows w.Stuck 1 (fun e e' _ => e.unplaced = e'.unplaced) nested nested' p q

theorem Nested.within (hn : w.Nested nested nested') (table : Precedence) (h : w.Beside p q)
    (hback : opensArguments p.passed = false) :
    w.Follows w.Stuck 1 (fun e e' _ => e.unplaced = e'.unplaced) (withTable table nested)
      (withTable table nested') p q :=
  Follows.withTable h fun p' q' h' hpassed => hn p' q' h' (hpassed ▸ hback)

theorem opens_nothing_behind_bracket {t : Token} {s : String} (h : t.isBracket s = true)
    (ts : List Token) : opensArguments (t :: ts) = false := by
  have hk := (bracket_of_isBracket h).1
  simp [opensArguments, isName, isKeyword, isOperator, hk]

theorem opens_nothing_behind_operator {t : Token} {s : String} (h : t.isOperator s = true)
    (hs : s ≠ "!") (ts : List Token) : opensArguments (t :: ts) = false := by
  obtain ⟨hk, ht⟩ := operator_of_isOperator h
  simp [opensArguments, isName, isKeyword, isOperator, hk, ht, hs]

/-- Where no parenthesis opens arguments, neither does one behind a prefix operator. -/
theorem opens_nothing_behind_prefix {t : Token} {ts : List Token} (ht : t.kind = .operator)
    (hts : opensArguments ts = false) : opensArguments (t :: ts) = false := by
  have hhead : ts.head?.any isName = false := by
    cases ts with
    | nil => rfl
    | cons u us =>
      simp only [opensArguments, Bool.or_eq_false_iff] at hts
      simpa using hts.1.1
  simp [opensArguments, isName, isKeyword, ht, hhead]

theorem bars_behind_stage {t : Token} {ts : List Token} (ht : t.isOperator "->" = true)
    (hts : ts.head?.any (·.isBracket "\x7d") = true) : barsOperand (t :: ts) = true := by
  cases ts with
  | nil => cases hts
  | cons u us =>
    have hu : u.isBracket "\x7d" = true := by simpa using hts
    have hclosing : u.isBracket ")" = false := by
      simp [isBracket, (bracket_of_isBracket hu).2]
    simp [barsOperand, ht, hclosing]

theorem map_eq_of_related {α β : Type} {f : α → β} {as bs : List α}
    (h : List.Forall₂ (fun a b => f a = f b) as bs) : as.map f = bs.map f := by
  rw [← List.forall₂_eq_eq_eq, List.forall₂_map_left_iff, List.forall₂_map_right_iff]
  exact h

/-! ### Single tokens -/

theorem literal_alike {t u : Token} (h : Alike t u) {v : Literal} (ht : literalOf t = .ok v) :
    literalOf u = .ok v := by
  have hms : t.milliseconds? = u.milliseconds? := by
    rw [milliseconds?, milliseconds?, h.kind, h.text]
  have hoption : (literalOf t).toOption = (literalOf u).toOption := by
    rw [literalOf, literalOf, h.kind, h.text, hms]
    split
    · split <;> rfl
    · split <;> rfl
    · rfl
    · split <;> rfl
    · rfl
  rw [ht] at hoption
  cases hu : literalOf u with
  | ok v' =>
    rw [hu] at hoption
    cases hoption
    rfl
  | error e =>
    rw [hu] at hoption
    cases hoption

theorem scalar_follows (h : w.Beside p q) (ha : p.current.Alike q.current)
    (hs : p.current.isScalar = true) :
    w.Follows Never 1 (fun e e' _ => e.unplaced = e'.unplaced) scalar scalar p q := by
  obtain ⟨hbracket, hoperator, hend⟩ : p.current.kind ≠ .bracket ∧ p.current.kind ≠ .operator ∧
      p.current.kind ≠ .endOfInput := by
    refine ⟨?_, ?_, ?_⟩ <;> intro hk <;> simp [isScalar, hk] at hs
  have hsize := size_of_kind hbracket hoperator
  have htoken := Follows.pass h ha (not_end_of_kind hend)
  refine (htoken.bind_never (n := 0) fun t u p₁ q₁ h₁ ht => ?_).at_least (by omega)
  have hliteral : w.Follows Never 0 (fun a b _ => a = b) (ofExcept (literalOf t))
      (ofExcept (literalOf u)) p₁ q₁ := Follows.ofExcept h₁ fun v hv => literal_alike ht.alike hv
  refine hliteral.bind_never (n := 0) fun a b p₂ q₂ h₂ hab => Follows.pure h₂ ?_
  rw [hab, Expr.unplaced, Expr.unplaced, ht.alike.unplaced]

/-- Two bounds between brackets. -/
theorem range_follows (hn : w.Nested nested nested') (h : w.Beside p q)
    (ha : p.current.Alike q.current) {s : String} (ho : p.current.isBracket s = true)
    (hs : s ≠ "\x7b" ∧ s ≠ "\x7d") :
    w.Follows Never 1 (fun e e' _ => e.unplaced = e'.unplaced) (range nested) (range nested') p q := by
  have hsize := size_of_other_bracket ho hs
  have htoken := Follows.pass h ha (not_end_of_bracket ho)
  have hblind : Blind fun t => t.isBracket ")" || t.isBracket "]" :=
    (blind_bracket (by decide)).or (blind_bracket (by decide))
  refine (htoken.bind_never (n := 0) fun opening opening' p₁ q₁ h₁ hopening => ?_).at_least (by omega)
  have hback : opensArguments p₁.passed = false := by
    rw [hopening.passed, hopening.current]
    exact opens_nothing_behind_bracket ho _
  refine ((hn.within .arithmetic h₁ hback).bind_stuck (n := 0) (fun lower lower' p₂ q₂ h₂ hlower => ?_)
    fun _ => Stalls.token_bind (takes_expected _ _) (blind_operator (by decide))).at_least (by omega)
  refine (Follows.operator h₂ (by decide)).bind_never (n := 0) fun comma comma' p₃ q₃ h₃ hcomma => ?_
  have hback : opensArguments p₃.passed = false := by
    rw [hcomma.passed]
    exact opens_nothing_behind_operator hcomma.holds (by decide) _
  refine ((hn.within .arithmetic h₃ hback).bind_stuck (n := 0) (fun upper upper' p₄ q₄ h₄ hupper => ?_)
    fun _ => Stalls.token_bind (takes_closing _ _) hblind).at_least (by omega)
  have hclosing : w.Follows Never 0 (Took _ p₄) (expectClosing _ opening) (expectClosing _ opening') p₄ q₄ :=
    Follows.token h₄ (takes_closing _ _) (takes_closing _ _) hblind fun t ht => by
      rcases Bool.or_eq_true_iff.mp ht with ht | ht
      · exact not_end_of_bracket ht
      · exact not_end_of_bracket ht
  refine hclosing.bind_never (n := 0) fun c c' p₅ q₅ h₅ hc => Follows.pure h₅ ?_
  rw [Expr.unplaced, Expr.unplaced, hopening.alike.unplaced, hlower, hupper, hc.alike.unplaced]

/-- A comparison with the value under test. -/
theorem comparison_follows (hn : w.Nested nested nested') (op : CompareOp) (h : w.Beside p q)
    (ha : p.current.Alike q.current) {s : String} (ho : p.current.isOperator s = true) (hs : s ≠ "!") :
    w.Follows w.Stuck 1 (fun e e' _ => e.unplaced = e'.unplaced) (comparison nested op)
      (comparison nested' op) p q := by
  have htoken := Follows.pass h ha (not_end_of_operator (operator_of_isOperator ho).1)
  refine (htoken.bind_never (n := 1) fun t t' p₁ q₁ h₁ ht => ?_).at_least (by omega)
  have hback : opensArguments p₁.passed = false := by
    rw [ht.passed, ht.current]
    exact opens_nothing_behind_operator ho hs _
  refine Follows.sees_bind h₁ blind_end (fun _ => Follows.of_error rfl) fun _ => ?_
  refine (hn.within .arithmetic h₁ hback).bind_stuck (n := 0) (fun e e' p₂ q₂ h₂ he => ?_)
    fun _ => Stalls.pure _
  refine Follows.pure h₂ ?_
  rw [Expr.unplaced, Expr.unplaced, he]

/-! ### Arrows -/

/-- A brace is passed where no spelling begins. -/
theorem brace_follows (h : w.Beside p q) (ha : p.current.Alike q.current) :
    w.Follows Never 0 (Took (·.isBracket "\x7b") p) (expectBracket "\x7b") (expectBracket "\x7b")
      p q := by
  cases hbrace : p.current.isBracket "\x7b" with
  | false =>
    obtain ⟨e, he⟩ := (takes_expected (·.isBracket "\x7b") (.symbol "\x7b")).fails p hbrace
    exact Follows.of_error he
  | true =>
    exact (Follows.token_alike h (takes_expected _ _) (takes_expected _ _)
      (fun t u htu => htu.isBracket_eq _) ha (not_end_of_bracket hbrace)).at_least (Nat.zero_le _)

theorem stage_follows (hn : w.Nested nested nested') (h : w.Beside p q)
    (ha : p.current.Alike q.current) :
    w.Follows Never 1 (fun s s' p' => s.unplaced = s'.unplaced ∧
      p'.passed.head?.any (·.isBracket "\x7d") = true) (stage nested) (stage nested') p q := by
  refine ((brace_follows h ha).bind_never (n := 1)
    fun opening opening' p₁ q₁ h₁ hopening => ?_).at_least (by omega)
  have hback : opensArguments p₁.passed = false := by
    rw [hopening.passed]
    exact opens_nothing_behind_bracket hopening.holds _
  refine (hn.within .standard h₁ hback).bind_stuck (n := 0) (fun body body' p₂ q₂ h₂ hbody => ?_)
    fun _ => Stalls.token_bind (takes_closing _ _) (blind_bracket (by decide))
  refine (Follows.closing h₂ (by decide)).bind_never (n := 0) fun c c' p₃ q₃ h₃ hc => Follows.pure h₃ ?_
  refine ⟨?_, ?_⟩
  · rw [Stage.unplaced, Stage.unplaced, hopening.alike.unplaced, hbody]
  · rw [hc.passed]
    simpa using hc.holds

theorem arrow_follows (hn : w.Nested nested nested') (h : w.Beside p q)
    (ha : p.current.Alike q.current) :
    w.Follows Never 1 (fun e e' _ => e.unplaced = e'.unplaced) (arrow nested) (arrow nested') p q := by
  -- behind an arrow that follows a stage no spelling begins
  have hitem : ∀ p q, w.Beside p q → p.passed.head?.any (·.isBracket "\x7d") = true →
      p.current.isOperator "->" = true → p.current.Alike q.current →
      w.Follows Never 2 (fun s s' p' => s.unplaced = s'.unplaced ∧
        p'.passed.head?.any (·.isBracket "\x7d") = true)
        (do let _ ← advance; stage nested) (do let _ ← advance; stage nested') p q := by
    intro p q h hp harrow ha
    have hk := (operator_of_isOperator harrow).1
    have hsize := size_of_operator hk
    have htoken := Follows.pass h ha (not_end_of_operator hk)
    refine (htoken.bind_never (n := 1) fun t t' p₁ q₁ h₁ ht => ?_).at_least (by omega)
    have hbars : barsOperand p₁.passed = true := by
      rw [ht.passed, ht.current]
      exact bars_behind_stage harrow hp
    exact stage_follows hn h₁ (h₁.alike_of_bars hbars)
  refine ((stage_follows hn h ha).bind_never (n := 0) fun s s' p₁ q₁ h₁ hs => ?_).at_least (by omega)
  have hothers := Follows.many (w := w) _ (fun _ h => False.elim h) (blind_operator (s := "->") (by decide))
    (fun t ht => (operator_of_isOperator ht).1) hitem h₁ hs.2
  refine hothers.bind_never (n := 0) fun others others' p₂ q₂ h₂ hothers => Follows.pure h₂ ?_
  rw [Expr.unplaced_arrow, Expr.unplaced_arrow, List.map_cons, List.map_cons, hs.1,
    map_eq_of_related hothers.1]

/-! ### Calls -/

theorem peek_behind (hlast : p.last.isEnd = true) (hend : p.current.isEnd = false) :
    p.peek 1 = p.advanced.current := by
  obtain ⟨ts, hp⟩ := Parser.ahead_of_current hlast hend
  rw [Parser.advanced_of_ahead hp hend, Parser.peek, hp]
  rfl

theorem Beside.agree_next {test : Token → Bool} (h : w.Beside p q) (ht : Blind test)
    (ha : p.current.Alike q.current) (hend : p.current.isEnd = false) :
    test (p.peek 1) = test (q.peek 1) := by
  rw [peek_behind h.ended hend, peek_behind h.ended_right (ha.isEnd_eq ▸ hend)]
  exact (h.advanced ha hend).agree ht

theorem marker_follows (h : w.Beside p q) (name : Token) :
    w.Follows Never 0 (fun a b _ => a = b) (strictMarker name) (strictMarker name) p q := by
  refine Follows.state_bind ?_
  cases hmark : p.current.isOperator "!" with
  | false =>
    have hmark' := (h.agree (blind_operator (by decide))).symm.trans hmark
    simp only [hmark', Bool.false_and, Bool.false_eq_true, if_false]
    exact Follows.pure h rfl
  | true =>
    have ha := h.alike_of_test (blind_operator (by decide)) hmark
    have hend := not_end_of_operator (operator_of_isOperator hmark).1
    have hnext : (p.peek 1).isBracket "(" = (q.peek 1).isBracket "(" :=
      h.agree_next (blind_bracket (by decide)) ha hend
    rw [← ha.placed (Or.inr hmark), ← hnext, hmark]
    cases true && p.current.position.offset == name.endOffset && (p.peek 1).isBracket "(" with
    | false => exact Follows.pure h rfl
    | true =>
      have hpass := Follows.pass h ha hend
      refine (hpass.bind_never (n := 0) fun _ _ p₁ q₁ h₁ _ => ?_).at_least (Nat.zero_le _)
      exact Follows.pure h₁ rfl

theorem arguments_follows (hn : w.Nested nested nested') (h : w.Beside p q) (name : Token)
    (isStrict : Bool) :
    w.Follows Never 0 (fun c c' _ => c.unplaced = c'.unplaced) (arguments nested name isStrict)
      (arguments nested' name isStrict) p q := by
  refine (Follows.bracket h (by decide)).bind_never (n := 0) fun opening opening' p₁ q₁ h₁ hopening => ?_
  have hclose : ∀ {p q : Parser} {args args' : List Expr}, w.Beside p q →
      args.map Expr.unplaced = args'.map Expr.unplaced →
      w.Follows Never 0 (fun c c' _ => c.unplaced = c'.unplaced)
        (do
          let _ ← expectClosing (·.isBracket ")") opening
          return (⟨name, isStrict, args⟩ : Call Expr))
        (do
          let _ ← expectClosing (·.isBracket ")") opening'
          return (⟨name, isStrict, args'⟩ : Call Expr)) p q := by
    intro p q args args' h hargs
    refine (Follows.closing h (by decide)).bind_never (n := 0) fun _ _ p₁ q₁ h₁ _ => Follows.pure h₁ ?_
    rw [Call.unplaced, Call.unplaced, hargs]
  refine Follows.sees_bind h₁ (blind_bracket (by decide)) (fun hclosing => ?_) fun hclosing => ?_
  · exact hclose h₁ rfl
  · have hback : opensArguments p₁.passed = false := by
      rw [hopening.passed]
      exact opens_nothing_behind_bracket hopening.holds _
    have hitem : ∀ p q, w.Beside p q → True → p.current.isOperator "," = true →
        p.current.Alike q.current →
        w.Follows w.Stuck 2 (fun e e' _ => e.unplaced = e'.unplaced ∧ True)
          (do let _ ← advance; withTable .standard nested)
          (do let _ ← advance; withTable .standard nested') p q := by
      intro p q h _ hcomma ha
      have hsize := size_of_other_operator hcomma (by decide)
      have hend := not_end_of_operator (operator_of_isOperator hcomma).1
      refine Follows.at_least ?_ (Nat.le_of_eq hsize.symm)
      refine (Follows.pass h ha hend).bind_never (n := 0) fun t t' p₁ q₁ h₁ ht => ?_
      have hback : opensArguments p₁.passed = false := by
        rw [ht.passed, ht.current]
        exact opens_nothing_behind_operator hcomma (by decide) _
      exact (hn.within .standard h₁ hback).weaken (fun _ h => h) (Nat.zero_le _) fun _ _ _ h => ⟨h, trivial⟩
    have hcomma : Blind (·.isOperator ",") := blind_operator (by decide)
    have hclosing : Blind (·.isBracket ")") := blind_bracket (by decide)
    refine Follows.at_least ?_ (Nat.zero_le 1)
    refine (hn.within .standard h₁ hback).bind_stuck (n := 0) (fun first first' p₂ q₂ h₂ hfirst => ?_)
      fun _ => ?_
    · have hothers := Follows.many (fun _ => True) (fun _ h => h) hcomma
        (fun t ht => (operator_of_isOperator ht).1) hitem h₂ trivial
      refine hothers.bind_stuck (n := 0) (fun others others' p₃ q₃ h₃ hothers => ?_) fun _ => ?_
      · refine hclose h₃ ?_
        rw [List.map_cons, List.map_cons, hfirst, map_eq_of_related hothers.1]
      · exact Stalls.token_bind (takes_closing _ _) hclosing
    · refine Stalls.bind_unmoved (fun p h => many_none (h.fails hcomma)) ?_
      exact Stalls.token_bind (takes_closing _ _) hclosing

theorem chainElement_follows (hn : w.Nested nested nested') (h : w.Beside p q)
    (ha : p.current.Alike q.current) (hp : p.current.isOperator "." = true) :
    w.Follows Never 2 (fun c c' _ => c.unplaced = c'.unplaced) (chainElement nested)
      (chainElement nested') p q := by
  have hsize := size_of_other_operator hp (by decide)
  have hend := not_end_of_operator (operator_of_isOperator hp).1
  refine Follows.at_least ?_ (Nat.le_of_eq hsize.symm)
  refine (Follows.pass h ha hend).bind_never (n := 0) fun _ _ p₁ q₁ h₁ _ => Follows.current_bind ?_
  cases hname : p₁.current.isName with
  | false =>
    simp only [Bool.not_false, if_true]
    exact Follows.of_error rfl
  | true =>
    have ha₁ := h₁.alike_of_test blind_name hname
    have hsame := ha₁.placed (Or.inl hname)
    simp only [← hsame, hname, Bool.not_true, Bool.false_eq_true, if_false]
    have hpass := Follows.pass h₁ ha₁ (not_end_of_name hname)
    refine (hpass.bind_never (n := 0) fun _ _ p₂ q₂ h₂ _ => ?_).at_least (Nat.zero_le _)
    refine (marker_follows h₂ p₁.current).bind_never (n := 0) fun mark mark' p₃ q₃ h₃ hmark => ?_
    subst hmark
    refine Follows.sees_bind h₃ (blind_bracket (by decide)) (fun _ => ?_) fun _ => ?_
    · exact arguments_follows hn h₃ _ mark
    · exact Follows.of_error rfl

/-- What a name begins: a variable, a call or a chain of calls. -/
theorem named_follows (hn : w.Nested nested nested') (h : w.Beside p q)
    (ha : p.current.Alike q.current) (hname : p.current.isName = true) :
    w.Follows Never 1 (fun e e' _ => e.unplaced = e'.unplaced) (named nested) (named nested') p q := by
  have hk : p.current.kind = .name := by simpa [isName] using hname
  have hsize := size_of_kind (t := p.current) (by simp [hk]) (by simp [hk])
  have hpass := Follows.pass h ha (not_end_of_name hname)
  refine (hpass.bind_never (n := 0) fun name name' p₁ q₁ h₁ ht => ?_).at_least (by omega)
  obtain rfl : name = name' := ht.alike.placed (Or.inl (ht.current ▸ hname))
  refine (marker_follows h₁ name).bind_never (n := 0) fun mark mark' p₂ q₂ h₂ hmark => ?_
  subst hmark
  refine Follows.sees_bind h₂ (blind_bracket (by decide)) (fun hopening => ?_) fun _ => ?_
  · refine (arguments_follows hn h₂ name mark).bind_never (n := 0) fun first first' p₃ q₃ h₃ hfirst => ?_
    have hitem : ∀ p q, w.Beside p q → True → p.current.isOperator "." = true →
        p.current.Alike q.current → w.Follows Never 2 (fun c c' _ => c.unplaced = c'.unplaced ∧ True)
          (chainElement nested) (chainElement nested') p q := by
      intro p q h _ hpoint ha
      exact (chainElement_follows hn h ha hpoint).weaken (fun _ h => h) (Nat.le_refl _)
        fun _ _ _ h => ⟨h, trivial⟩
    have hothers := Follows.many (fun _ => True) (fun _ h => False.elim h) (blind_operator (by decide))
      (fun t ht => (operator_of_isOperator ht).1) hitem h₃ trivial
    refine hothers.bind_never (n := 0) fun others others' p₄ q₄ h₄ hothers => Follows.pure h₄ ?_
    obtain ⟨hothers, -⟩ := hothers
    cases hothers with
    | nil =>
      simp only [List.isEmpty_nil, if_true]
      rw [Expr.unplaced_call, Expr.unplaced_call, hfirst]
    | cons hc hcs =>
      simp only [List.isEmpty_cons, Bool.false_eq_true, if_false]
      have hcalls := map_eq_of_related (.cons hfirst (.cons hc hcs))
      rw [Expr.unplaced_chain, Expr.unplaced_chain, hcalls]
  · exact Follows.pure h₂ rfl

/-! ### Parentheses -/

/-- The tokens from the parameters of an anonymous function to its arrow. -/
def inLambdaHead (t : Token) : Bool :=
  t.isBracket "(" || t.isName || t.isOperator "," || t.isBracket ")" || t.isOperator "->"

theorem blind_inLambdaHead : Blind inLambdaHead := by
  have hopening : Blind (·.isBracket "(") := blind_bracket (by decide)
  have hcomma : Blind (·.isOperator ",") := blind_operator (by decide)
  have hclosing : Blind (·.isBracket ")") := blind_bracket (by decide)
  have harrow : Blind (·.isOperator "->") := blind_operator (by decide)
  exact (((hopening.or blind_name).or hcomma).or hclosing).or harrow

theorem not_end_inLambdaHead {t : Token} (h : inLambdaHead t = true) : t.isEnd = false := by
  simp only [inLambdaHead, Bool.or_eq_true] at h
  rcases h with (((h | h) | h) | h) | h
  · exact not_end_of_bracket h
  · exact not_end_of_name h
  · exact not_end_of_operator (operator_of_isOperator h).1
  · exact not_end_of_bracket h
  · exact not_end_of_operator (operator_of_isOperator h).1

/-- The first `n` tokens are those of parameters and end with the arrow. -/
def BeginsLambda (ts : List Token) (n : Nat) : Prop :=
  ∃ front a rest, ts = front ++ a :: rest ∧ n = front.length + 1 ∧ a.isOperator "->" = true ∧
    ∀ t ∈ front, inLambdaHead t = true

theorem lambda_close_split {ts : List Token} (h : lambdaHead?.close ts = some n) :
    ∃ c a rest, ts = c :: a :: rest ∧ n = 2 ∧ c.isBracket ")" = true ∧ a.isOperator "->" = true := by
  match ts with
  | [] => cases h
  | [_] => cases h
  | c :: a :: rest =>
    rw [lambdaHead?.close] at h
    split at h
    · next hca =>
      obtain ⟨hc, ha⟩ := Bool.and_eq_true_iff.mp hca
      cases h
      exact ⟨c, a, rest, rfl, rfl, hc, ha⟩
    · cases h

theorem lambda_params_split {ts ps : List Token} {n : Nat}
    (h : lambdaHead?.params ts = some (ps, n)) :
    ∃ inner c a rest, ts = inner ++ c :: a :: rest ∧ n = inner.length + 2 ∧
      (∀ t ∈ inner, t.isName = true ∨ t.isOperator "," = true) ∧ c.isBracket ")" = true ∧
      a.isOperator "->" = true := by
  rcases ts with _ | ⟨t, _ | ⟨s, rest⟩⟩
  · cases h
  · cases h
  · rw [lambdaHead?.params] at h
    split at h
    · next hname =>
      split at h
      · next hcomma =>
        obtain ⟨⟨ps', m⟩, hparams, heq⟩ := Option.map_eq_some_iff.mp h
        cases heq
        obtain ⟨inner, c, a, rest', rfl, rfl, hinner, hc, ha⟩ := lambda_params_split hparams
        refine ⟨t :: s :: inner, c, a, rest', rfl, rfl, fun u hu => ?_, hc, ha⟩
        rcases List.mem_cons.mp hu with rfl | hu
        · exact Or.inl hname
        rcases List.mem_cons.mp hu with rfl | hu
        · exact Or.inr hcomma
        · exact hinner u hu
      · obtain ⟨m, hclose, heq⟩ := Option.map_eq_some_iff.mp h
        cases heq
        obtain ⟨c, a, rest', hts, rfl, hc, ha⟩ := lambda_close_split hclose
        refine ⟨[t], c, a, rest', by rw [hts]; rfl, rfl, fun u hu => ?_, hc, ha⟩
        rw [List.mem_singleton.mp hu]
        exact Or.inl hname
    · obtain ⟨m, hclose, heq⟩ := Option.map_eq_some_iff.mp h
      cases heq
      obtain ⟨c, a, rest', hts, rfl, hc, ha⟩ := lambda_close_split hclose
      exact ⟨[], c, a, rest', hts, rfl, fun u hu => absurd hu List.not_mem_nil, hc, ha⟩

/-- Names and commas between parentheses, and the arrow. -/
theorem lambdaHead_split {ts ps : List Token} (h : lambdaHead? ts = some (ps, n)) :
    ∃ o inner c a rest, ts = o :: inner ++ c :: a :: rest ∧ n = inner.length + 3 ∧
      o.isBracket "(" = true ∧ (∀ t ∈ inner, t.isName = true ∨ t.isOperator "," = true) ∧
      c.isBracket ")" = true ∧ a.isOperator "->" = true := by
  cases ts with
  | nil => cases h
  | cons t ts =>
    rw [lambdaHead?] at h
    split at h
    · next ht =>
      obtain ⟨⟨ps', m⟩, hparams, heq⟩ := Option.map_eq_some_iff.mp h
      cases heq
      obtain ⟨inner, c, a, rest, rfl, rfl, hinner, hc, ha⟩ := lambda_params_split hparams
      exact ⟨t, inner, c, a, rest, rfl, rfl, ht, hinner, hc, ha⟩
    · cases h

theorem beginsLambda {ts ps : List Token} (h : lambdaHead? ts = some (ps, n)) :
    BeginsLambda ts n := by
  obtain ⟨o, inner, c, a, rest, rfl, rfl, ho, hinner, hc, ha⟩ := lambdaHead_split h
  refine ⟨o :: inner ++ [c], a, rest, by simp, by simp, ha, fun t ht => ?_⟩
  rcases List.mem_append.mp ht with ht | ht
  · rcases List.mem_cons.mp ht with rfl | ht
    · simp [inLambdaHead, ho]
    · rcases hinner t ht with ht | ht <;> simp [inLambdaHead, ht]
  · rw [List.mem_singleton.mp ht]
    simp [inLambdaHead, hc]

theorem skip_follows (h : w.Beside p q) (hp : BeginsLambda p.ahead n) :
    w.Follows Never 0 (fun _ _ p' => opensArguments p'.passed = false) (skip n) (skip n) p q := by
  obtain ⟨front, a, rest, hahead, rfl, harrow, hfront⟩ := hp
  have hpass : ∀ {p q : Parser} {t : Token} {ts : List Token}, w.Beside p q → p.ahead = t :: ts →
      inLambdaHead t = true →
        w.Follows Never 0 (fun _ _ p' => p'.ahead = ts ∧ p'.passed = t :: p.passed) advance advance
          p q := by
    intro p q t ts h hp ht
    have hcurrent := Parser.current_of_ahead hp
    subst hcurrent
    have ha := h.alike_of_test blind_inLambdaHead ht
    refine (Follows.pass h ha (not_end_inLambdaHead ht)).weaken (fun _ h => h) (Nat.zero_le _) ?_
    intro t u p' htook
    obtain ⟨rfl, -, -, -, hpassed, hahead⟩ := htook
    exact ⟨(List.cons_eq_cons.mp (hahead.symm.trans hp)).2, hpassed⟩
  induction front generalizing p q with
  | nil =>
    have ha : inLambdaHead a = true := by simp [inLambdaHead, harrow]
    refine (hpass h hahead ha).bind_never (n := 0) fun _ _ p₁ q₁ h₁ hp₁ => Follows.pure h₁ ?_
    rw [hp₁.2]
    exact opens_nothing_behind_operator harrow (by decide) _
  | cons t front ih =>
    have ht := hfront t List.mem_cons_self
    refine (hpass h hahead ht).bind_never (n := 0) fun _ _ p₁ q₁ h₁ hp₁ => ?_
    exact ih h₁ hp₁.1 fun u hu => hfront u (List.mem_cons_of_mem t hu)

theorem parenthesised_follows (hn : w.Nested nested nested') (h : w.Beside p q)
    (ha : p.current.Alike q.current) (ho : p.current.isBracket "(" = true)
    (hback : opensArguments p.passed = false) :
    w.Follows w.Stuck 1 (fun e e' _ => e.unplaced = e'.unplaced) (parenthesised nested)
      (parenthesised nested') p q := by
  refine Follows.state_bind ?_
  rw [← h.lambdaHead_eq, ← h.startsRange_eq ha ho hback]
  cases hhead : lambdaHead? p.ahead with
  | some head =>
    obtain ⟨params, m⟩ := head
    refine (skip_follows h (beginsLambda hhead)).bind_never (n := 1) fun _ _ p₁ q₁ h₁ hback => ?_
    refine (hn.within .standard h₁ hback).bind_stuck (n := 0) (fun body body' p₂ q₂ h₂ hbody => ?_)
      fun _ => Stalls.pure _
    refine Follows.pure h₂ ?_
    rw [Expr.unplaced, Expr.unplaced, hbody]
  | none =>
    cases startsRange p.ahead with
    | true => exact (range_follows hn h ha ho (by decide)).or_lost
    | false =>
      have hsize := size_of_other_bracket ho (by decide)
      have hpass := Follows.pass h ha (not_end_of_bracket ho)
      refine (hpass.bind_never (n := 0) fun opening opening' p₁ q₁ h₁ ht => ?_).at_least (by omega)
      have hback : opensArguments p₁.passed = false := by
        rw [ht.passed, ht.current]
        exact opens_nothing_behind_bracket ho _
      refine Follows.at_least ?_ (Nat.zero_le 1)
      refine (hn p₁ q₁ h₁ hback).bind_stuck (n := 0) (fun e e' p₂ q₂ h₂ he => ?_)
        fun _ => Stalls.token_bind (takes_closing _ _) (blind_bracket (by decide))
      refine (Follows.closing h₂ (by decide)).bind_never (n := 0) fun _ _ p₃ q₃ h₃ _ => ?_
      exact Follows.pure h₃ he

/-! ### Operands -/

theorem symbolic_of_shorthand {t : Token} (h : shorthandEnd? p.ahead = some n) :
    (symbolic nested t).run p = (arrow nested).run (p.expanded n) := by
  rw [symbolic, run_bind_ok (run_state p)]
  simp only [h]
  rfl

theorem symbolic_follows (hn : w.Nested nested nested') (h : w.Beside p q)
    (ha : p.current.Alike q.current) (ho : p.current.kind = .operator) :
    w.Follows w.Stuck 1 (fun e e' _ => e.unplaced = e'.unplaced) (symbolic nested p.current)
      (symbolic nested' q.current) p q := by
  cases hend : shorthandEnd? p.ahead with
  | some n =>
    have hend' := (h.shorthandEnd_eq ha).symm.trans hend
    obtain ⟨hexpanded, haexpanded⟩ := h.expanded ha hend
    exact (arrow_follows hn hexpanded haexpanded).or_lost.elsewhere (symbolic_of_shorthand hend)
      (symbolic_of_shorthand hend') (Parser.total_expanded hend) (Parser.total_expanded hend')
  | none =>
    refine Follows.state_bind ?_
    rw [← h.shorthandEnd_eq ha, ← ha.text, hend]
    cases hop : CompareOp.ofSymbol? p.current.text with
    | none => exact Follows.of_error rfl
    | some op =>
      have hs : p.current.text ≠ "!" := by
        rw [← CompareOp.symbol_ofSymbol hop]
        cases op <;> decide
      exact comparison_follows hn op h ha (by simp [isOperator, ho]) hs

theorem primary_follows (hn : w.Nested nested nested') (h : w.Beside p q)
    (hback : opensArguments p.passed = false) :
    w.Follows w.Stuck 1 (fun e e' _ => e.unplaced = e'.unplaced) (primary nested) (primary nested')
      p q := by
  refine Follows.current_bind ?_
  rcases h.facing_or_alike with hfacing | ha
  · obtain ⟨hkind, htext⟩ := bracket_of_isBracket hfacing.current_left
    have hkind' := (operator_of_isOperator hfacing.current_right).1
    obtain ⟨n, hend, hexpanded, ha⟩ := hfacing.expanded h
    simp only [hkind, htext, hkind']
    exact (arrow_follows hn hexpanded ha).or_lost.elsewhere rfl (symbolic_of_shorthand hend)
      (Nat.le_refl _) (Parser.total_expanded hend)
  · rw [← ha.kind, ← ha.text]
    cases hkind : p.current.kind with
    | bracket =>
      have hbracket : ∀ {s : String}, p.current.text = s → p.current.isBracket s = true := by
        intro s hs
        simp [isBracket, hkind, hs]
      by_cases hrange : p.current.text = "["
      · simp only [hrange, if_true]
        exact (range_follows hn h ha (hbracket hrange) (by decide)).or_lost
      by_cases hparen : p.current.text = "("
      · simp only [hparen]
        exact parenthesised_follows hn h ha (hbracket hparen) hback
      by_cases hbrace : p.current.text = "\x7b"
      · simp only [hbrace]
        exact (arrow_follows hn h ha).or_lost
      · simp only [hrange, hparen, hbrace, if_false]
        exact Follows.of_error rfl
    | operator => exact symbolic_follows hn h ha hkind
    | name =>
      exact (named_follows hn h ha (by simp [isName, hkind])).or_lost
    | keyword => exact Follows.of_error rfl
    | endOfInput => exact Follows.of_error rfl
    | _ =>
      exact (scalar_follows h ha (by simp [isScalar, hkind])).or_lost

theorem unary_alike {t u : Token} (h : Alike t u) : unaryOp? t = unaryOp? u := by
  rw [unaryOp?, unaryOp?, h.kind, h.text]

theorem operator_of_unary {t : Token} (h : (unaryOp? t).isSome = true) : t.kind = .operator := by
  rw [unaryOp?] at h
  split at h
  · next hk => exact hk
  · cases h

theorem blind_unary : Blind fun t => (unaryOp? t).isSome := by
  refine ⟨fun t u htu => by rw [unary_alike htu], fun t ht => ?_, fun t ht => ?_⟩
  · obtain ⟨hk, -⟩ := bracket_of_isBracket ht
    simp [unaryOp?, hk]
  · obtain ⟨hk, htext⟩ := operator_of_isOperator ht
    have hnone : UnaryOp.ofSymbol? "<" = none := by decide
    simp [unaryOp?, hk, htext, hnone]

theorem size_of_unary {t : Token} (h : (unaryOp? t).isSome = true) : t.size = 2 := by
  have hk := operator_of_unary h
  rw [unaryOp?, if_pos hk] at h
  obtain ⟨op, hop⟩ := Option.isSome_iff_exists.mp h
  have htext : t.isOperator op.symbol = true := by
    simp [isOperator, hk, UnaryOp.symbol_ofSymbol hop]
  exact size_of_other_operator htext (by cases op <;> decide)

/-- An operand with the unary operators in front of it. -/
theorem operand_follows (hn : w.Nested nested nested') (h : w.Beside p q)
    (hback : opensArguments p.passed = false) :
    w.Follows w.Stuck 1 (fun e e' _ => e.unplaced = e'.unplaced) (operand nested) (operand nested')
      p q := by
  have hitem : ∀ p q, w.Beside p q → opensArguments p.passed = false →
      (unaryOp? p.current).isSome = true → p.current.Alike q.current →
      w.Follows Never 2 (fun t u p' => unaryOp? t = unaryOp? u ∧ opensArguments p'.passed = false)
        advance advance p q := by
    intro p q h hback hunary ha
    have hk := operator_of_unary hunary
    refine (Follows.pass h ha (not_end_of_operator hk)).weaken (fun _ h => h)
      (Nat.le_of_eq (size_of_unary hunary).symm) fun t u p' ht => ⟨unary_alike ht.alike, ?_⟩
    rw [ht.passed, ht.current]
    exact opens_nothing_behind_prefix hk hback
  have hsymbols := Follows.many (fun p => opensArguments p.passed = false) (fun _ h => False.elim h)
    blind_unary (fun _ => operator_of_unary) hitem h hback
  refine (hsymbols.bind_never (n := 1) fun ops ops' p₁ q₁ h₁ hops => ?_).at_least (by omega)
  refine (primary_follows hn h₁ hops.2).bind_stuck (n := 0) (fun e e' p₂ q₂ h₂ he => ?_)
    fun _ => Stalls.pure _
  refine Follows.pure h₂ ?_
  have hops : ops.filterMap unaryOp? = ops'.filterMap unaryOp? := by
    have hid : ∀ ts : List Token, ts.filterMap unaryOp? = (ts.map unaryOp?).filterMap id := by
      intro ts
      rw [List.filterMap_map]
      rfl
    rw [hid, hid, map_eq_of_related hops.1]
  rw [Expr.unplaced_prefixed, Expr.unplaced_prefixed, hops, he]

/-! ### Expressions -/

theorem rank_alike (h : w.Beside p q) (ha : p.current.Alike q.current) :
    operatorRank? p = operatorRank? q := by
  rw [operatorRank?, operatorRank?, ha.kind, ha.text, h.table]

theorem operator_of_rank (h : (operatorRank? p).isSome = true) : p.current.kind = .operator := by
  rw [operatorRank?] at h
  split at h
  · next hk => exact hk
  · cases h

theorem Stuck.no_rank (h : w.Stuck p) : (operatorRank? p).isSome = false := by
  rw [operatorRank?, (bracket_of_isBracket h.current).1]
  rfl

theorem link_follows (hn : w.Nested nested nested') (h : w.Beside p q)
    (ha : p.current.Alike q.current) (hk : p.current.kind = .operator) :
    w.Follows w.Stuck 2 (fun l l' _ => l.unplaced = l'.unplaced) (link nested) (link nested') p q := by
  refine Follows.state_bind ?_
  rw [← ha.text, ← rank_alike h ha]
  cases hop : BinaryOp.ofSymbol? p.current.text with
  | none => exact Follows.of_error rfl
  | some op =>
    have hs : p.current.text ≠ "!" := by
      rw [← BinaryOp.symbol_ofSymbol hop]
      cases op with
      | compare c => cases c <;> decide
      | _ => decide
    have hsize := size_of_operator hk
    have hpass := Follows.pass h ha (not_end_of_operator hk)
    refine (hpass.bind_never (n := 1) fun t t' p₁ q₁ h₁ ht => ?_).at_least (by omega)
    have hback : opensArguments p₁.passed = false := by
      rw [ht.passed, ht.current]
      exact opens_nothing_behind_operator (by simp [isOperator, hk]) hs _
    refine (operand_follows hn h₁ hback).bind_stuck (n := 0) (fun e e' p₂ q₂ h₂ he => ?_)
      fun _ => Stalls.pure _
    refine Follows.pure h₂ ?_
    rw [Link.unplaced, Link.unplaced, he]

theorem joined_follows (hn : w.Nested nested nested') : w.Nested (joined nested) (joined nested') := by
  intro p q h hback
  have hmore : ∀ p q, w.Beside p q → True →
      w.Stuck p ∨ (operatorRank? p).isSome = (operatorRank? q).isSome := by
    intro p q h _
    rcases h.facing_or_alike with hfacing | ha
    · exact Or.inl hfacing.left
    · exact Or.inr (congrArg Option.isSome (rank_alike h ha))
  have hsize : ∀ p : Parser, p.last.isEnd = true → (operatorRank? p).isSome = true →
      1 ≤ total p.ahead := fun p hlast hrank =>
    Parser.total_of_operator hlast (operator_of_rank hrank)
  have hitem : ∀ p q, w.Beside p q → True → (operatorRank? p).isSome = true →
      (operatorRank? q).isSome = true →
      w.Follows w.Stuck 2 (fun l l' _ => l.unplaced = l'.unplaced ∧ True) (link nested)
        (link nested') p q := by
    intro p q h _ hrank _
    have ha : p.current.Alike q.current := by
      rcases h.facing_or_alike with hfacing | ha
      · rw [Stuck.no_rank hfacing.left] at hrank
        cases hrank
      · exact ha
    exact (link_follows hn h ha (operator_of_rank hrank)).weaken (fun _ h => h) (Nat.le_refl 2)
      fun _ _ _ h => ⟨h, trivial⟩
  refine (operand_follows hn h hback).bind_stuck (n := 0) (fun first first' p₁ q₁ h₁ hfirst => ?_)
    fun _ => ?_
  · refine Follows.state_bind ?_
    have hlinks := Follows.repeatWhile (fun _ => True) (fun _ h => h.no_rank) hmore hsize hitem h₁
      trivial (total_le p₁.ahead) (total_le q₁.ahead)
    refine hlinks.bind_stuck (n := 0) (fun links links' p₂ q₂ h₂ hlinks => Follows.pure h₂ ?_)
      fun _ => Stalls.pure _
    rw [Link.unplaced_group, Link.unplaced_group, hfirst, map_eq_of_related hlinks.1]
  · intro p hstuck e p' hrun
    have hstay : (repeatWhile (fun q => (operatorRank? q).isSome) (link nested) p.ahead.length).run p =
        (.ok [], p) := repeatWhile_none hstuck.no_rank _
    obtain ⟨p₀, p₁, hstate, hrun⟩ := bind_ok hrun
    cases hstate
    rw [run_bind_ok hstay] at hrun
    cases hrun
    exact hstuck

/-- Deeper expressions may be read in front of the shorthand. -/
theorem nestedExpression_follows (w : Respelling) {depth depth' : Nat} (h : depth ≤ depth') :
    w.Nested (nestedExpression depth) (nestedExpression depth') := by
  induction depth generalizing depth' with
  | zero => exact fun p q _ _ => Follows.of_error rfl
  | succ depth ih =>
    obtain ⟨depth', rfl⟩ : ∃ d, depth' = d + 1 := ⟨depth' - 1, by omega⟩
    exact joined_follows (ih (by omega))

theorem expression_follows (h : w.Beside p q) (hback : opensArguments p.passed = false) :
    w.Follows w.Stuck 1 (fun e e' _ => e.unplaced = e'.unplaced) expression expression p q := by
  refine Follows.state_bind ?_
  have hweight := h.weight_le
  exact nestedExpression_follows w (by omega) p q h hback

end Respelling

end EventRules
