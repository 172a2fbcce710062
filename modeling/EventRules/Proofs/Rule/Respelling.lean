import EventRules.Rule.Parser.Program
import EventRules.Proofs.Rule.Spelling

/-!
# A text in two spellings

A `Respelling` is an arrow of equality stages, its shorthand, and the tokens behind both. Two parsers
are `Beside` each other when they stand in front of the two spellings, with the same tokens before
them, or behind both of them. Their current tokens are alike then, unless the parsers face the spellings
themselves: the one a brace, the other the sign `<`. No test of the grammar tells these two
apart, except where a stage or a block has to begin (`barsOperand`), and no lookahead goes beyond them,
except the one that counts the commas of a parenthesis (`Fits.ranges`).
-/

namespace EventRules
set_option autoImplicit false

open Token

/-- Whether no operand can begin behind these tokens, the latest first: a brace would open a block, or
join a stage to an arrow. Behind the parameters of an anonymous function an operand can begin. -/
def barsOperand : List Token → Bool
  | [] => false
  | t :: ts =>
    t.isBracket ")" || t.isKeyword "else" || t.isOperator "->" && !ts.head?.any (·.isBracket ")")

/-- Whether a parenthesis behind these tokens, the latest first, encloses arguments or a condition. -/
def opensArguments : List Token → Bool
  | [] => false
  | t :: ts => t.isName || t.isKeyword "if" || t.isOperator "!" && ts.head?.any isName

structure Respelling where
  values : List Token
  long : List Token
  short : List Token
  behind : List Token
  nonempty : values ≠ []
  literal : ∀ v ∈ values, v.isShorthandValue = true
  long_spelled : Spells (arrowMarks values) long
  short_spelled : Spells (shorthandMarks values) short

/-- What begins with a brace or with the sign `<`. -/
def BeginsSpelling (ts : List Token) : Prop :=
  ∃ t us, ts = t :: us ∧ (t.isBracket "\x7b" = true ∨ t.isOperator "<" = true)

/-- A test that fails on a brace and on the sign `<` and does not tell tokens apart that are alike. -/
structure Blind (test : Token → Bool) : Prop where
  alike : ∀ t u, Alike t u → test t = test u
  brace : ∀ t, t.isBracket "\x7b" = true → test t = false
  angle : ∀ t, t.isOperator "<" = true → test t = false

theorem Blind.begins {test : Token → Bool} (h : Blind test) {t : Token}
    (ht : t.isBracket "\x7b" = true ∨ t.isOperator "<" = true) : test t = false := by
  rcases ht with ht | ht
  · exact h.brace t ht
  · exact h.angle t ht

theorem blind_operator {s : String} (h : s ≠ "<") : Blind (·.isOperator s) := by
  refine ⟨fun t u htu => htu.isOperator_eq s, fun t ht => ?_, fun t ht => ?_⟩
  · obtain ⟨hk, -⟩ := bracket_of_isBracket ht
    simp [isOperator, hk]
  · obtain ⟨-, htext⟩ := operator_of_isOperator ht
    simp [isOperator, htext, h.symm]

theorem blind_bracket {s : String} (h : s ≠ "\x7b") : Blind (·.isBracket s) := by
  refine ⟨fun t u htu => htu.isBracket_eq s, fun t ht => ?_, fun t ht => ?_⟩
  · obtain ⟨-, htext⟩ := bracket_of_isBracket ht
    simp [isBracket, htext, h.symm]
  · obtain ⟨hk, -⟩ := operator_of_isOperator ht
    simp [isBracket, hk]

theorem blind_of_kind {test : Token → Bool} (kind : TokenKind) (h : kind ≠ .bracket ∧ kind ≠ .operator)
    (halike : ∀ t u, Alike t u → test t = test u) (htest : ∀ t, test t = true → t.kind = kind) :
    Blind test := by
  have hfalse : ∀ t : Token, t.kind = .bracket ∨ t.kind = .operator → test t = false := by
    intro t ht
    cases hresult : test t with
    | false => rfl
    | true =>
      have hk := htest t hresult
      rcases ht with ht | ht
      · exact absurd (hk.symm.trans ht) h.1
      · exact absurd (hk.symm.trans ht) h.2
  refine ⟨halike, fun t ht => ?_, fun t ht => ?_⟩
  · obtain ⟨hk, -⟩ := bracket_of_isBracket ht
    exact hfalse t (Or.inl hk)
  · obtain ⟨hk, -⟩ := operator_of_isOperator ht
    exact hfalse t (Or.inr hk)

theorem blind_keyword (word : String) : Blind (·.isKeyword word) := by
  refine blind_of_kind .keyword (by decide) (fun t u h => h.isKeyword_eq word) fun t h => ?_
  exact (show t.kind = .keyword ∧ t.text = word by simpa [isKeyword] using h).1

theorem blind_name : Blind isName := by
  refine blind_of_kind .name (by decide) (fun t u h => h.isName_eq) fun t h => ?_
  simpa [isName] using h

theorem blind_end : Blind isEnd := by
  refine blind_of_kind .endOfInput (by decide) (fun t u h => h.isEnd_eq) fun t h => ?_
  simpa [isEnd] using h

theorem Blind.or {test other : Token → Bool} (h : Blind test) (h' : Blind other) :
    Blind fun t => test t || other t := by
  refine ⟨fun t u htu => ?_, fun t ht => ?_, fun t ht => ?_⟩
  · simp only [h.alike t u htu, h'.alike t u htu]
  · simp only [h.brace t ht, h'.brace t ht, Bool.or_self]
  · simp only [h.angle t ht, h'.angle t ht, Bool.or_self]

/-! ### Lookaheads in front of a spelling -/

theorem shorthandValues_append {rest : List Token} (hr : BeginsSpelling rest) (us : List Token) :
    shorthandValues? (us ++ rest) = shorthandValues? us := by
  obtain ⟨t, ts, rfl, ht⟩ := hr
  have hvalue : t.isShorthandValue = false := by
    rcases ht with ht | ht
    · obtain ⟨hk, -⟩ := bracket_of_isBracket ht
      simp [isShorthandValue, isScalar, hk]
    · obtain ⟨hk, -⟩ := operator_of_isOperator ht
      simp [isShorthandValue, isScalar, hk]
  have hsign : ∀ {s : String}, s ≠ "<" → t.isOperator s = false := fun hs => (blind_operator hs).begins ht
  induction us using shorthandValues?.induct with
  | case1 v s us hv hs ih => simp only [List.cons_append, shorthandValues?, ih]
  | case2 v s us hv hs hs' => simp [shorthandValues?, hv, hs, hs']
  | case3 v s us hv hs hs' => simp [shorthandValues?, hv, hs, hs']
  | case4 v s us hv => simp [shorthandValues?, hv]
  | case5 us hus =>
    rcases us with _ | ⟨v, _ | ⟨s, us⟩⟩
    · cases ts <;> simp [shorthandValues?, hvalue]
    · simp [shorthandValues?, hsign (s := ",") (by decide), hsign (s := ">") (by decide)]
    · exact absurd rfl (hus v s us)

theorem shorthandEnd_append {rest : List Token} (hr : BeginsSpelling rest) (t : Token)
    (us : List Token) : shorthandEnd? (t :: us ++ rest) = shorthandEnd? (t :: us) := by
  rw [List.cons_append, shorthandEnd?, shorthandEnd?, shorthandValues_append hr]

namespace Parse

theorem lambda_close_append {rest : List Token} (hr : BeginsSpelling rest) (us : List Token) :
    lambdaHead?.close (us ++ rest) = lambdaHead?.close us := by
  obtain ⟨t, ts, rfl, ht⟩ := hr
  have hclosing : t.isBracket ")" = false := (blind_bracket (by decide)).begins ht
  have harrow : t.isOperator "->" = false := (blind_operator (by decide)).begins ht
  match us with
  | [] => cases ts <;> simp [lambdaHead?.close, hclosing]
  | [c] => simp [lambdaHead?.close, harrow]
  | c :: a :: us => rfl

theorem lambda_params_append {rest : List Token} (hr : BeginsSpelling rest) (us : List Token) :
    lambdaHead?.params (us ++ rest) = lambdaHead?.params us := by
  have hclose := lambda_close_append hr
  obtain ⟨t, ts, rfl, ht⟩ := hr
  have hname : t.isName = false := blind_name.begins ht
  have hcomma : t.isOperator "," = false := (blind_operator (by decide)).begins ht
  match us with
  | [] =>
    cases ts with
    | nil => rfl
    | cons u ts =>
      have hnil : lambdaHead?.close (t :: u :: ts) = none := hclose []
      simp [lambdaHead?.params, hname, hnil]
  | [n] =>
    have hnil : lambdaHead?.close (t :: ts) = none := hclose []
    have hone : lambdaHead?.close (n :: t :: ts) = none := hclose [n]
    simp [lambdaHead?.params, hcomma, hnil, hone]
  | n :: s :: us =>
    have ih := lambda_params_append ⟨t, ts, rfl, ht⟩ us
    have htail := hclose (s :: us)
    have hall := hclose (n :: s :: us)
    simp only [List.cons_append] at htail hall ⊢
    rw [lambdaHead?.params, lambdaHead?.params, ih, htail, hall]

theorem lambdaHead_append {rest : List Token} (hr : BeginsSpelling rest) (us : List Token) :
    lambdaHead? (us ++ rest) = lambdaHead? us := by
  cases us with
  | nil =>
    obtain ⟨t, ts, rfl, ht⟩ := hr
    have hopening : t.isBracket "(" = false := (blind_bracket (by decide)).begins ht
    simp [lambdaHead?, hopening]
  | cons t us => rw [List.cons_append, lambdaHead?, lambdaHead?, lambda_params_append hr]

end Parse

/-! ### Tokens passed -/

/-- The last sign of an arrow, in either spelling. -/
def EndsSpelling (t : Token) : Prop := t.isBracket "\x7d" = true ∨ t.isOperator ">" = true

theorem EndsSpelling.bars_nothing {t : Token} (h : EndsSpelling t) :
    t.isBracket ")" = false ∧ t.isKeyword "else" = false ∧ t.isOperator "->" = false := by
  rcases h with h | h
  · obtain ⟨hk, ht⟩ := bracket_of_isBracket h
    simp [isBracket, isKeyword, isOperator, hk, ht]
  · obtain ⟨hk, ht⟩ := operator_of_isOperator h
    simp [isBracket, isKeyword, isOperator, hk, ht]

theorem EndsSpelling.opens_nothing {t : Token} (h : EndsSpelling t) :
    t.isName = false ∧ t.isKeyword "if" = false ∧ t.isOperator "!" = false := by
  rcases h with h | h
  · obtain ⟨hk, ht⟩ := bracket_of_isBracket h
    simp [isName, isKeyword, isOperator, hk]
  · obtain ⟨hk, ht⟩ := operator_of_isOperator h
    simp [isName, isKeyword, isOperator, hk, ht]

theorem EndsSpelling.not_end {t : Token} (h : EndsSpelling t) : t.isEnd = false := by
  rcases h with h | h
  · exact not_end_of_bracket h
  · exact not_end_of_operator (operator_of_isOperator h).1

/-- It makes no difference to the tokens behind which sign ends an arrow before them. -/
theorem barsOperand_behind {t u : Token} (ht : EndsSpelling t) (hu : EndsSpelling u)
    (ts us vs : List Token) : barsOperand (vs ++ t :: ts) = barsOperand (vs ++ u :: us) := by
  obtain ⟨ht₁, ht₂, ht₃⟩ := ht.bars_nothing
  obtain ⟨hu₁, hu₂, hu₃⟩ := hu.bars_nothing
  match vs with
  | [] => simp [barsOperand, ht₁, ht₂, ht₃, hu₁, hu₂, hu₃]
  | [x] => simp [barsOperand, ht₁, hu₁]
  | x :: y :: vs => rfl

theorem opensArguments_behind {t u : Token} (ht : EndsSpelling t) (hu : EndsSpelling u)
    (ts us vs : List Token) : opensArguments (vs ++ t :: ts) = opensArguments (vs ++ u :: us) := by
  obtain ⟨ht₁, ht₂, ht₃⟩ := ht.opens_nothing
  obtain ⟨hu₁, hu₂, hu₃⟩ := hu.opens_nothing
  match vs with
  | [] => simp [opensArguments, ht₁, ht₂, ht₃, hu₁, hu₂, hu₃]
  | [x] => simp [opensArguments, ht₁, hu₁]
  | x :: y :: vs => rfl

theorem shorthand_ends {values span : List Token} (h : Spells (shorthandMarks values) span) :
    ∃ front c, span = front ++ [c] ∧ EndsSpelling c := by
  have hmarks : shorthandMarks values =
      (.op "<" :: separated "," (values.map fun v => [valueMark v])) ++ [.op ">"] := rfl
  rw [hmarks] at h
  obtain ⟨front, cs, rfl, -, hcs⟩ := Spells.append_iff.mp h
  obtain ⟨c, rfl, hc⟩ := Spells.singleton_iff.mp hcs
  exact ⟨front, c, rfl, Or.inr (operator_of_shows hc)⟩

theorem arrow_begins {values ts : List Token} (hne : values ≠ [])
    (h : Spells (arrowMarks values) ts) :
    ∃ t us, ts = t :: us ∧ t.isBracket "\x7b" = true := by
  obtain ⟨v, vs, rfl⟩ := List.exists_cons_of_ne_nil hne
  rw [arrowMarks, List.map_cons, separated, equalityMarks, List.cons_append] at h
  obtain ⟨t, us, heq, ht, -⟩ := Spells.cons_iff.mp h
  exact ⟨t, us, heq, bracket_of_shows ht⟩

theorem arrow_ends {values ts : List Token} (hne : values ≠ []) (h : Spells (arrowMarks values) ts) :
    ∃ front c, ts = front ++ [c] ∧ EndsSpelling c := by
  obtain ⟨ms, hms⟩ := arrowMarks_end hne
  rw [hms] at h
  obtain ⟨front, cs, rfl, -, hcs⟩ := Spells.append_iff.mp h
  obtain ⟨c, rfl, hc⟩ := Spells.singleton_iff.mp hcs
  exact ⟨front, c, rfl, Or.inl (bracket_of_shows hc)⟩

theorem no_parenthesis_in_marks {ms : List Mark} {ts : List Token}
    (hms : ∀ m ∈ ms, ∀ t, m.Shows t → t.isBracket "(" = false) (h : Spells ms ts) :
    ∀ t ∈ ts, t.isBracket "(" = false := by
  induction h with
  | nil => simp
  | @cons m t ms ts ht _ ih =>
    intro u hu
    rcases List.mem_cons.mp hu with rfl | hu
    · exact hms m List.mem_cons_self u ht
    · exact ih (fun n hn => hms n (List.mem_cons_of_mem m hn)) u hu

theorem no_parenthesis_in_value {v t : Token} (hv : v.isShorthandValue = true)
    (ht : (valueMark v).Shows t) : t.isBracket "(" = false := by
  have hscalar := (value_of_shown ht).2.1.trans (scalar_of_value hv)
  cases hk : t.kind <;> simp [isBracket, isScalar, hk] at hscalar ⊢

theorem no_parenthesis_in_arrow {values ts : List Token}
    (hvalues : ∀ v ∈ values, v.isShorthandValue = true) (h : Spells (arrowMarks values) ts) :
    ∀ t ∈ ts, t.isBracket "(" = false := by
  refine no_parenthesis_in_marks (fun m hm t ht => ?_) h
  rcases mem_arrowMarks hm with rfl | rfl | rfl | rfl | ⟨v, hv, rfl⟩
  · exact blind_bracket (by decide) |>.brace t (bracket_of_shows ht)
  · simp [isBracket, ht.2]
  · simp [isBracket, ht.1]
  · simp [isBracket, ht.1]
  · exact no_parenthesis_in_value (hvalues v hv) ht

theorem no_parenthesis_in_shorthand {values ts : List Token}
    (hvalues : ∀ v ∈ values, v.isShorthandValue = true) (h : Spells (shorthandMarks values) ts) :
    ∀ t ∈ ts, t.isBracket "(" = false := by
  refine no_parenthesis_in_marks (fun m hm t ht => ?_) h
  rcases mem_shorthandMarks hm with rfl | rfl | rfl | ⟨v, hv, rfl⟩
  · simp [isBracket, ht.1]
  · simp [isBracket, ht.1]
  · simp [isBracket, ht.1]
  · exact no_parenthesis_in_value (hvalues v hv) ht

/-! ### Steps of one parser -/

namespace Parser

variable {p : Parser} {ts span rest : List Token} {t : Token} {n : Nat}

theorem current_of_ahead (h : p.ahead = t :: ts) :
    p.current = t := by
  rw [Parser.current, Parser.peek, h]
  rfl

theorem current_of_nil (h : p.ahead = []) : p.current = p.last := by
  rw [Parser.current, Parser.peek, h]
  rfl

theorem ahead_of_current (hlast : p.last.isEnd = true) (h : p.current.isEnd = false) :
    ∃ ts, p.ahead = p.current :: ts := by
  cases hp : p.ahead with
  | nil =>
    rw [current_of_nil hp, hlast] at h
    cases h
  | cons t ts => exact ⟨ts, by rw [current_of_ahead hp]⟩

theorem advanced_of_ahead (hp : p.ahead = p.current :: ts)
    (h : p.current.isEnd = false) :
    p.advanced = { p with passed := p.current :: p.passed, ahead := ts } := by
  generalize p.current = t at hp h
  rw [Parser.advanced, hp]
  simp [h]

theorem ahead_advanced (hlast : p.last.isEnd = true) (h : p.current.isEnd = false) :
    p.ahead = p.current :: p.advanced.ahead := by
  obtain ⟨ts, hp⟩ := ahead_of_current hlast h
  rw [advanced_of_ahead hp h, hp]

theorem total_advanced (hlast : p.last.isEnd = true) (h : p.current.isEnd = false) :
    total p.ahead = p.current.size + total p.advanced.ahead := by
  rw [ahead_advanced hlast h, total_cons]

theorem total_of_operator (hlast : p.last.isEnd = true) (h : p.current.kind = .operator) :
    1 ≤ total p.ahead := by
  have hsize := size_of_operator h
  rw [total_advanced hlast (not_end_of_operator h)]
  omega

theorem passed_advanced (hlast : p.last.isEnd = true) (h : p.current.isEnd = false) :
    p.advanced.passed = p.current :: p.passed := by
  obtain ⟨ts, hp⟩ := ahead_of_current hlast h
  rw [advanced_of_ahead hp h]

/-- The parser behind the expansion of the shorthand of `n + 1` tokens at its place. -/
def expanded (p : Parser) (n : Nat) : Parser :=
  { p with ahead := expandShorthand (p.ahead.take (n + 1)) ++ p.ahead.drop (n + 1) }

theorem ahead_expanded (hp : p.ahead = span ++ rest)
    (hn : span.length = n + 1) : (p.expanded n).ahead = expandShorthand span ++ rest := by
  rw [Parser.expanded, hp, ← hn, List.take_left, List.drop_left]

theorem total_expanded (h : shorthandEnd? p.ahead = some n) :
    total (p.expanded n).ahead ≤ total p.ahead := by
  obtain ⟨values, span, rest, hp, hlen, hne, hvalues, hspan⟩ := spelled_of_shorthandEnd h
  have hexpansion := expansion_of_shorthand hvalues hspan
  have hle : total (expandShorthand span) ≤ total span :=
    arrow_le_shorthand shrinks_size hne hvalues hexpansion hspan
  rw [ahead_expanded hp hlen, hp, total_append, total_append]
  omega

end Parser

namespace Respelling

variable (w : Respelling)

/-- The tokens with the arrow written in full, from some place before it on. -/
def full (us : List Token) : List Token := us ++ (w.long ++ w.behind)

/-- The tokens with the shorthand. -/
def brief (us : List Token) : List Token := us ++ (w.short ++ w.behind)

/-- What makes two spellings interchangeable behind the tokens `us`, which follow those of `back`: an
operand can begin there, and the commas of the shorthand mislead no parenthesis. -/
structure Fits (back us : List Token) : Prop where
  operand : barsOperand (us.reverse ++ back) = false
  ranges : ∀ before opening after, us = before ++ opening :: after → opening.isBracket "(" = true →
    opensArguments (before.reverse ++ back) = false →
      startsRange (w.full (opening :: after)) = startsRange (w.brief (opening :: after))

variable {w} {back us ts span : List Token} {t : Token}

theorem Fits.tail (h : w.Fits back (t :: us)) : w.Fits (t :: back) us := by
  refine ⟨?_, fun before opening after hus ho hback => ?_⟩
  · have := h.operand
    rwa [List.reverse_cons, List.append_assoc] at this
  · refine h.ranges (t :: before) opening after (by rw [hus]; rfl) ho ?_
    rwa [List.reverse_cons, List.append_assoc]

/-- Another shorthand before the two spellings may be expanded. -/
theorem Fits.expanded {values : List Token} (hne : values ≠ [])
    (hvalues : ∀ v ∈ values, v.isShorthandValue = true) (hspan : Spells (shorthandMarks values) span)
    (h : w.Fits back (span ++ us)) : w.Fits back (expandShorthand span ++ us) := by
  have hexpansion := expansion_of_shorthand hvalues hspan
  obtain ⟨front, c, rfl, hc⟩ := shorthand_ends hspan
  obtain ⟨front', c', heq, hc'⟩ := arrow_ends hne hexpansion
  have hparen := no_parenthesis_in_arrow hvalues hexpansion
  rw [heq] at hparen ⊢
  have hback : ∀ (xs : List Token) (x : Token) (ys : List Token),
      (xs ++ [x] ++ ys).reverse ++ back = ys.reverse ++ x :: (xs.reverse ++ back) := by
    intro xs x ys
    simp
  refine ⟨?_, fun before opening after hus ho hbefore => ?_⟩
  · have hoperand := h.operand
    rw [hback] at hoperand ⊢
    rwa [barsOperand_behind hc' hc]
  · -- the parenthesis stands behind the arrow, which has none
    obtain ⟨m, hm, hus⟩ : ∃ m, before = front' ++ [c'] ++ m ∧ us = m ++ opening :: after := by
      rcases List.append_eq_append_iff.mp hus with ⟨m, hm, hus⟩ | ⟨m, hm, hus⟩
      · exact ⟨m, hm, hus⟩
      · cases m with
        | nil => exact ⟨[], by simpa using hm.symm, by simpa using hus.symm⟩
        | cons x m =>
          obtain ⟨rfl, -⟩ := List.cons_eq_cons.mp hus
          have hx := hparen opening (by rw [hm]; simp)
          rw [hx] at ho
          cases ho
    refine h.ranges (front ++ [c] ++ m) opening after (by rw [hus]; simp) ho ?_
    rw [hm, hback] at hbefore
    rwa [hback, opensArguments_behind hc hc']

/-! ### Parsers in front of the spellings -/

theorem long_begins (w : Respelling) : ∃ t ts, w.long = t :: ts ∧ t.isBracket "\x7b" = true :=
  arrow_begins w.nonempty w.long_spelled

theorem short_begins (w : Respelling) : ∃ t ts, w.short = t :: ts ∧ t.isOperator "<" = true := by
  obtain ⟨t, ts, heq, ht, -⟩ := Spells.cons_iff.mp w.short_spelled
  exact ⟨t, ts, heq, operator_of_shows ht⟩

theorem begins_full (w : Respelling) : BeginsSpelling (w.long ++ w.behind) := by
  obtain ⟨t, ts, heq, ht⟩ := w.long_begins
  exact ⟨t, ts ++ w.behind, by rw [heq]; rfl, Or.inl ht⟩

theorem begins_brief (w : Respelling) : BeginsSpelling (w.short ++ w.behind) := by
  obtain ⟨t, ts, heq, ht⟩ := w.short_begins
  exact ⟨t, ts ++ w.behind, by rw [heq]; rfl, Or.inr ht⟩

variable (w) in
structure Beside (p q : Parser) : Prop where
  table : p.table = q.table
  ended : p.last.isEnd = true
  last : p.last.Alike q.last
  ahead : (∃ us, w.Fits p.passed us ∧ p.ahead = w.full us ∧ q.ahead = w.brief us) ∨
    List.Forall₂ Alike p.ahead q.ahead

variable (w) in
/-- The next tokens are those of the spellings. -/
structure Facing (p q : Parser) : Prop where
  operand : barsOperand p.passed = false
  left : p.ahead = w.full []
  right : q.ahead = w.brief []

variable (w) in
/-- No construct but an operand goes on here. -/
def Stuck (p : Parser) : Prop := p.ahead = w.full []

variable {p q : Parser} {test : Token → Bool}

theorem Beside.ended_right (h : w.Beside p q) : q.last.isEnd = true := h.last.isEnd_eq ▸ h.ended

theorem current_alike (hlast : p.last.Alike q.last) (h : List.Forall₂ Alike p.ahead q.ahead) :
    p.current.Alike q.current := by
  cases hp : p.ahead with
  | nil =>
    rw [hp, List.forall₂_nil_left_iff] at h
    rw [Parser.current_of_nil hp, Parser.current_of_nil h]
    exact hlast
  | cons t ts =>
    rw [hp, List.forall₂_cons_left_iff] at h
    obtain ⟨u, us, hu, -, hq⟩ := h
    rw [Parser.current_of_ahead hp, Parser.current_of_ahead hq]
    exact hu

theorem Beside.facing_or_alike (h : w.Beside p q) : w.Facing p q ∨ p.current.Alike q.current := by
  obtain ⟨us, hfits, hp, hq⟩ | hall := h.ahead
  · cases us with
    | nil => exact Or.inl ⟨hfits.operand, hp, hq⟩
    | cons t us =>
      refine Or.inr ?_
      rw [Parser.current_of_ahead hp, Parser.current_of_ahead hq]
      exact .refl t
  · exact Or.inr (current_alike h.last hall)

/-- Behind a token that bars operands the parsers do not face the spellings. -/
theorem Beside.alike_of_bars (h : w.Beside p q) (hbars : barsOperand p.passed = true) :
    p.current.Alike q.current := by
  rcases h.facing_or_alike with hfacing | ha
  · rw [hfacing.operand] at hbars
    cases hbars
  · exact ha

theorem Stuck.current (h : w.Stuck p) : p.current.isBracket "\x7b" = true := by
  obtain ⟨t, ts, heq, ht⟩ := w.long_begins
  have hp : p.ahead = t :: (ts ++ w.behind) := by
    rw [h, full, heq]
    rfl
  rw [Parser.current_of_ahead hp]
  exact ht

theorem Facing.current_left (h : w.Facing p q) : p.current.isBracket "\x7b" = true :=
  Stuck.current h.left

theorem Facing.current_right (h : w.Facing p q) : q.current.isOperator "<" = true := by
  obtain ⟨t, ts, heq, ht⟩ := w.short_begins
  have hq : q.ahead = t :: (ts ++ w.behind) := by
    rw [h.right, brief, heq]
    rfl
  rw [Parser.current_of_ahead hq]
  exact ht

theorem Facing.not_alike (h : w.Facing p q) : ¬ p.current.Alike q.current := by
  intro ha
  have hoperator := ha.isOperator_eq "<"
  obtain ⟨hk, -⟩ := bracket_of_isBracket h.current_left
  rw [h.current_right] at hoperator
  simp [isOperator, hk] at hoperator

theorem Stuck.fails (h : w.Stuck p) (ht : Blind test) : test p.current = false :=
  ht.brace _ h.current

theorem Beside.agree (h : w.Beside p q) (ht : Blind test) : test p.current = test q.current := by
  rcases h.facing_or_alike with hf | ha
  · rw [ht.brace _ hf.current_left, ht.angle _ hf.current_right]
  · exact ht.alike _ _ ha

theorem Beside.alike_of_test (h : w.Beside p q) (ht : Blind test) (htrue : test p.current = true) :
    p.current.Alike q.current := by
  rcases h.facing_or_alike with hf | ha
  · rw [ht.brace _ hf.current_left] at htrue
    cases htrue
  · exact ha

/-- Where the current tokens are alike, some token stands before the spellings, or both are passed. -/
theorem Beside.ahead_of_alike (h : w.Beside p q) (ha : p.current.Alike q.current) :
    (∃ us, w.Fits p.passed (p.current :: us) ∧ p.ahead = w.full (p.current :: us) ∧
      q.ahead = w.brief (p.current :: us)) ∨ List.Forall₂ Alike p.ahead q.ahead := by
  obtain ⟨us, hfits, hp, hq⟩ | hall := h.ahead
  · cases us with
    | nil =>
      have hfacing : w.Facing p q := ⟨hfits.operand, hp, hq⟩
      exact absurd ha hfacing.not_alike
    | cons t us =>
      have ht := Parser.current_of_ahead hp
      subst ht
      exact Or.inl ⟨us, hfits, hp, hq⟩
  · exact Or.inr hall

theorem Beside.advanced (h : w.Beside p q) (ha : p.current.Alike q.current)
    (hend : p.current.isEnd = false) : w.Beside p.advanced q.advanced := by
  have hend' : q.current.isEnd = false := ha.isEnd_eq ▸ hend
  obtain ⟨ts, hp⟩ := Parser.ahead_of_current h.ended hend
  obtain ⟨ts', hq⟩ := Parser.ahead_of_current h.ended_right hend'
  rw [Parser.advanced_of_ahead hp hend, Parser.advanced_of_ahead hq hend']
  refine ⟨h.table, h.ended, h.last, ?_⟩
  obtain ⟨us, hfits, hleft, hright⟩ | hall := h.ahead_of_alike ha
  · rw [hp] at hleft
    rw [hq] at hright
    obtain ⟨-, rfl⟩ := List.cons_eq_cons.mp hleft
    obtain ⟨-, rfl⟩ := List.cons_eq_cons.mp hright
    exact Or.inl ⟨us, hfits.tail, rfl, rfl⟩
  · rw [hp, hq] at hall
    cases hall with
    | cons _ hall => exact Or.inr hall

/-! ### Looking ahead -/

theorem Beside.lambdaHead_eq (h : w.Beside p q) :
    Parse.lambdaHead? p.ahead = Parse.lambdaHead? q.ahead := by
  obtain ⟨us, -, hp, hq⟩ | hall := h.ahead
  · rw [hp, hq, full, brief, Parse.lambdaHead_append w.begins_full,
      Parse.lambdaHead_append w.begins_brief]
  · exact Parse.lambdaHead_alike hall

theorem Beside.shorthandEnd_eq (h : w.Beside p q) (ha : p.current.Alike q.current) :
    shorthandEnd? p.ahead = shorthandEnd? q.ahead := by
  obtain ⟨us, -, hp, hq⟩ | hall := h.ahead_of_alike ha
  · rw [hp, hq, full, brief, shorthandEnd_append w.begins_full, shorthandEnd_append w.begins_brief]
  · exact shorthandEnd_alike hall

theorem Beside.startsRange_eq (h : w.Beside p q) (ha : p.current.Alike q.current)
    (ho : p.current.isBracket "(" = true) (hback : opensArguments p.passed = false) :
    startsRange p.ahead = startsRange q.ahead := by
  obtain ⟨us, hfits, hp, hq⟩ | hall := h.ahead_of_alike ha
  · rw [hp, hq]
    exact hfits.ranges [] _ us rfl ho hback
  · exact startsRange_alike hall

theorem Beside.weight_le (h : w.Beside p q) : Parse.weight p.ahead ≤ Parse.weight q.ahead := by
  rw [weight_eq_tally, weight_eq_tally]
  obtain ⟨us, -, hp, hq⟩ | hall := h.ahead
  · have hspellings := arrow_le_shorthand shrinks_weight w.nonempty w.literal w.long_spelled
      w.short_spelled
    rw [hp, hq, full, brief]
    simp only [tally_append]
    omega
  · exact Nat.le_of_eq (tally_alike shrinks_weight.alike hall)

/-! ### Expanding a shorthand -/

/-- Both parsers expand the same shorthand. -/
theorem Beside.expanded {n : Nat} (h : w.Beside p q) (ha : p.current.Alike q.current)
    (hn : shorthandEnd? p.ahead = some n) :
    w.Beside (p.expanded n) (q.expanded n) ∧ (p.expanded n).current.Alike (q.expanded n).current := by
  obtain ⟨us, hfits, hp, hq⟩ | hall := h.ahead_of_alike ha
  · rw [hp, full, shorthandEnd_append w.begins_full] at hn
    obtain ⟨values, span, m, hus, hlen, hne, hvalues, hspan⟩ := spelled_of_shorthandEnd hn
    have hfull : (p.expanded n).ahead = w.full (expandShorthand span ++ m) := by
      rw [hus, full, List.append_assoc] at hp
      rw [Parser.ahead_expanded hp hlen, full, List.append_assoc]
    have hbrief : (q.expanded n).ahead = w.brief (expandShorthand span ++ m) := by
      rw [hus, brief, List.append_assoc] at hq
      rw [Parser.ahead_expanded hq hlen, brief, List.append_assoc]
    rw [hus] at hfits
    have hfits' : w.Fits (p.expanded n).passed (expandShorthand span ++ m) :=
      hfits.expanded hne hvalues hspan
    refine ⟨⟨h.table, h.ended, h.last, Or.inl ⟨_, hfits', hfull, hbrief⟩⟩, ?_⟩
    obtain ⟨t, ts, heq, -⟩ := arrow_begins hne (expansion_of_shorthand hvalues hspan)
    rw [heq] at hfull hbrief
    rw [Parser.current_of_ahead hfull, Parser.current_of_ahead hbrief]
    exact .refl t
  · have hall' : List.Forall₂ Alike (p.expanded n).ahead (q.expanded n).ahead :=
      List.rel_append (expansion_alike (List.forall₂_take (n + 1) hall))
        (List.forall₂_drop (n + 1) hall)
    exact ⟨⟨h.table, h.ended, h.last, Or.inr hall'⟩, current_alike h.last hall'⟩

/-- The shorthand expands to what the other parser faces. -/
theorem Facing.expanded (hf : w.Facing p q) (h : w.Beside p q) :
    ∃ n, shorthandEnd? q.ahead = some n ∧ w.Beside p (q.expanded n) ∧
      p.current.Alike (q.expanded n).current := by
  obtain ⟨n, hlen, hn⟩ := shorthandEnd_of_spelled w.nonempty w.literal w.short_spelled
  have hexpansion := expansion_of_shorthand w.literal w.short_spelled
  have hplain := arrow_plain fun v hv => scalar_of_value (w.literal v hv)
  have hspellings : List.Forall₂ Alike w.long (expandShorthand w.short) :=
    alike_of_spelled hplain w.long_spelled hexpansion
  have hbehind : List.Forall₂ Alike w.behind w.behind := List.forall₂_same.mpr fun t _ => .refl t
  have hq : q.ahead = w.short ++ w.behind := hf.right
  have hall : List.Forall₂ Alike p.ahead (q.expanded n).ahead := by
    rw [hf.left, Parser.ahead_expanded hq hlen]
    exact List.rel_append hspellings hbehind
  exact ⟨n, hq ▸ hn w.behind, ⟨h.table, h.ended, h.last, Or.inr hall⟩, current_alike h.last hall⟩

end Respelling

end EventRules
