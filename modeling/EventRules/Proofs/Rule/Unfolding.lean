import EventRules.Proofs.Rule.Respelling

/-!
# Tokens among which shorthands are expanded

Where an operand begins with a shorthand, the parser puts its arrow in its place, and going back to an
earlier mark does not undo this. `Unfolds` relates tokens to what some expansions make of them, `Passes`
follows a parser over its tokens. Lookaheads answer alike before and after, except the guess
whether a parenthesis begins a range (`rangeGuesses`): it counts the commas of a shorthand, and an
arrow has none.
-/

namespace EventRules
set_option autoImplicit false

open Token

/-- The tokens of a shorthand. -/
def IsShorthand (span : List Token) : Prop :=
  ∃ values, values ≠ [] ∧ (∀ v ∈ values, v.isShorthandValue = true) ∧
    Spells (shorthandMarks values) span

theorem isShorthand_of_end {ts : List Token} {n : Nat} (h : shorthandEnd? ts = some n) :
    ∃ span rest, ts = span ++ rest ∧ span.length = n + 1 ∧ IsShorthand span := by
  obtain ⟨values, span, rest, hts, hlen, hne, hvalues, hspan⟩ := spelled_of_shorthandEnd h
  exact ⟨span, rest, hts, hlen, values, hne, hvalues, hspan⟩

namespace IsShorthand

variable {span : List Token}

theorem begins (h : IsShorthand span) : ∃ t us, span = t :: us ∧ t.isOperator "<" = true := by
  obtain ⟨values, -, -, hspan⟩ := h
  obtain ⟨t, us, rfl, ht, -⟩ := Spells.cons_iff.mp hspan
  exact ⟨t, us, rfl, operator_of_shows ht⟩

theorem ends (h : IsShorthand span) : ∃ front c, span = front ++ [c] ∧ EndsSpelling c := by
  obtain ⟨values, -, -, hspan⟩ := h
  exact shorthand_ends hspan

theorem expansion_begins (h : IsShorthand span) :
    ∃ t us, expandShorthand span = t :: us ∧ t.isBracket "\x7b" = true := by
  obtain ⟨values, hne, hvalues, hspan⟩ := h
  exact arrow_begins hne (expansion_of_shorthand hvalues hspan)

theorem shorthandEnd_ne_none (h : IsShorthand span) (ts : List Token) : shorthandEnd? (span ++ ts) ≠ none := by
  obtain ⟨values, hne, hvalues, hspan⟩ := h
  obtain ⟨n, -, hn⟩ := shorthandEnd_of_spelled hne hvalues hspan
  rw [hn ts]
  exact Option.some_ne_none n

theorem both_begin (h : IsShorthand span) (ts : List Token) :
    BeginsSpelling (span ++ ts) ∧ BeginsSpelling (expandShorthand span ++ ts) := by
  obtain ⟨t, ss, rfl, ht⟩ := h.begins
  obtain ⟨u, xs, hx, hu⟩ := h.expansion_begins
  rw [hx]
  exact ⟨⟨t, _, rfl, Or.inr ht⟩, ⟨u, _, rfl, Or.inl hu⟩⟩

theorem expansion_ends (h : IsShorthand span) :
    ∃ front c, expandShorthand span = front ++ [c] ∧ EndsSpelling c := by
  obtain ⟨values, hne, hvalues, hspan⟩ := h
  exact arrow_ends hne (expansion_of_shorthand hvalues hspan)

theorem tally_le {f : Token → Nat} (hf : Shrinks f) (h : IsShorthand span) :
    tally f (expandShorthand span) ≤ tally f span := by
  obtain ⟨values, hne, hvalues, hspan⟩ := h
  exact arrow_le_shorthand hf hne hvalues (expansion_of_shorthand hvalues hspan) hspan

/-- Neither spelling has a parenthesis. -/
theorem no_parenthesis (h : IsShorthand span) :
    (∀ t ∈ span, t.isBracket "(" = false) ∧ ∀ t ∈ expandShorthand span, t.isBracket "(" = false := by
  obtain ⟨values, hne, hvalues, hspan⟩ := h
  have hexpansion := no_parenthesis_in_arrow hvalues (expansion_of_shorthand hvalues hspan)
  exact ⟨no_parenthesis_in_shorthand hvalues hspan, hexpansion⟩

end IsShorthand

/-! ### Expansions -/

/-- What expanding some shorthands makes of tokens. -/
inductive Unfolds : List Token → List Token → Prop where
  | refl (ts : List Token) : Unfolds ts ts
  | token (t : Token) {ts us : List Token} (h : Unfolds ts us) : Unfolds (t :: ts) (t :: us)
  | expand {span ts us : List Token} (hspan : IsShorthand span)
      (h : Unfolds (expandShorthand span ++ ts) us) : Unfolds (span ++ ts) us

/-- `Passes ts us vs`: in front of `ts` a parser passes `us`, with shorthands expanded on the way, and
stands in front of `vs` then. It passes no end token. -/
inductive Passes : List Token → List Token → List Token → Prop where
  | stay (ts : List Token) : Passes ts [] ts
  | token {t : Token} (ht : t.isEnd = false) {ts us vs : List Token} (h : Passes ts us vs) :
    Passes (t :: ts) (t :: us) vs
  | expand {span ts us vs : List Token} (hspan : IsShorthand span)
      (h : Passes (expandShorthand span ++ ts) us vs) : Passes (span ++ ts) us vs

variable {ts us vs ws back : List Token}

theorem Passes.trans (h : Passes ts us vs) {us' : List Token} (h' : Passes vs us' ws) :
    Passes ts (us ++ us') ws := by
  induction h with
  | stay ts => exact h'
  | token ht _ ih => exact .token ht (ih h')
  | expand hspan _ ih => exact .expand hspan (ih h')

theorem Passes.unfolds (h : Passes ts us vs) (h' : Unfolds vs ws) : Unfolds ts (us ++ ws) := by
  induction h with
  | stay ts => exact h'
  | token _ _ ih => exact .token _ (ih h')
  | expand hspan _ ih => exact .expand hspan (ih h')

theorem Passes.append (hts : ∀ t ∈ ts, t.isEnd = false) (us : List Token) : Passes (ts ++ us) ts us := by
  induction ts with
  | nil => exact .stay us
  | cons t ts ih =>
    exact .token (hts t List.mem_cons_self) (ih fun u hu => hts u (List.mem_cons_of_mem t hu))

namespace Unfolds

theorem tally_le {f : Token → Nat} (hf : Shrinks f) (h : Unfolds ts us) : tally f us ≤ tally f ts := by
  induction h with
  | refl ts => exact Nat.le_refl _
  | token t _ ih =>
    rw [tally, tally]
    omega
  | expand hspan _ ih =>
    have hle := hspan.tally_le hf
    rw [tally_append] at ih ⊢
    omega

theorem total_le (h : Unfolds ts us) : total us ≤ total ts := h.tally_le shrinks_size

theorem weight_le (h : Unfolds ts us) : Parse.weight us ≤ Parse.weight ts := by
  rw [weight_eq_tally, weight_eq_tally]
  exact h.tally_le shrinks_weight

/-- The first token is kept, unless a shorthand begins with it. -/
theorem first (h : Unfolds ts us) :
    ts = us ∨ (∃ t ts' us', ts = t :: ts' ∧ us = t :: us' ∧ Unfolds ts' us') ∨
      ∃ t u ts' us', ts = t :: ts' ∧ us = u :: us' ∧ t.isOperator "<" = true ∧
        u.isBracket "\x7b" = true ∧ shorthandEnd? ts ≠ none := by
  induction h with
  | refl ts => exact Or.inl rfl
  | @token t ts us h _ => exact Or.inr (Or.inl ⟨t, ts, us, rfl, rfl, h⟩)
  | @expand span ts us hspan _ ih =>
    have hend := hspan.shorthandEnd_ne_none ts
    obtain ⟨t, ss, rfl, ht⟩ := hspan.begins
    obtain ⟨u, xs, hx, hu⟩ := hspan.expansion_begins
    rw [hx, List.cons_append] at ih
    have hkept : ∃ us', us = u :: us' := by
      rcases ih with rfl | ⟨u', ts', us', heq, rfl, -⟩ | ⟨u', v, ts', us', heq, -, hangle, -⟩
      · exact ⟨_, rfl⟩
      · obtain ⟨rfl, -⟩ := List.cons_eq_cons.mp heq
        exact ⟨us', rfl⟩
      · -- a brace begins no shorthand
        obtain ⟨rfl, -⟩ := List.cons_eq_cons.mp heq
        simp [isOperator, (bracket_of_isBracket hu).1] at hangle
    obtain ⟨us', rfl⟩ := hkept
    exact Or.inr (Or.inr ⟨t, u, _, us', rfl, rfl, ht, hu, hend⟩)

/-- A lookahead that stops where a spelling begins does not see what is expanded there. -/
theorem lookahead {α : Type} (look : List Token → α)
    (hlook : ∀ front rest, BeginsSpelling rest → look (front ++ rest) = look front)
    (h : Unfolds ts us) (front : List Token) : look (front ++ ts) = look (front ++ us) := by
  induction h generalizing front with
  | refl ts => rfl
  | token t _ ih =>
    have ih := ih (front ++ [t])
    simpa using ih
  | @expand span ts us hspan _ ih =>
    obtain ⟨hshort, hlong⟩ := hspan.both_begin ts
    rw [hlook front _ hshort, ← hlook front _ hlong]
    exact ih front

theorem lambdaHead_eq (h : Unfolds ts us) : Parse.lambdaHead? ts = Parse.lambdaHead? us :=
  h.lookahead _ (fun front _ hr => Parse.lambdaHead_append hr front) []

theorem shorthandEnd_eq {t : Token} (h : Unfolds ts us) :
    shorthandEnd? (t :: ts) = shorthandEnd? (t :: us) :=
  h.lookahead (fun vs => shorthandEnd? (t :: vs)) (fun front _ hr => shorthandEnd_append hr t front) []

end Unfolds

/-! ### Parsers -/

namespace Parser

/-- The parser with other tokens ahead. -/
def before (p : Parser) (us : List Token) : Parser := { p with ahead := us }

@[simp] theorem before_ahead (p : Parser) (us : List Token) : (p.before us).ahead = us := rfl

@[simp] theorem before_own (p : Parser) : p.before p.ahead = p := rfl

/-- The parser passes the tokens `ts` and is `q` then. -/
structure Reaches (p : Parser) (ts : List Token) (q : Parser) : Prop where
  passed : q.passed = ts.reverse ++ p.passed
  last : q.last = p.last
  table : q.table = p.table
  ahead : Passes p.ahead ts q.ahead

variable {p q r : Parser} {ts us : List Token} {n : Nat}

namespace Reaches

theorem refl (p : Parser) : p.Reaches [] p := ⟨rfl, rfl, rfl, .stay p.ahead⟩

theorem trans (h : p.Reaches ts q) (h' : q.Reaches us r) : p.Reaches (ts ++ us) r := by
  refine ⟨?_, h'.last.trans h.last, h'.table.trans h.table, h.ahead.trans h'.ahead⟩
  rw [h'.passed, h.passed, List.reverse_append, List.append_assoc]

theorem unique (h : p.Reaches ts q) (h' : p.Reaches us q) : ts = us := by
  have heq := h.passed.symm.trans h'.passed
  exact List.reverse_injective (List.append_cancel_right heq)

theorem unfolds (h : p.Reaches ts q) (h' : Unfolds q.ahead us) : Unfolds p.ahead (ts ++ us) :=
  h.ahead.unfolds h'

theorem ended (h : p.Reaches ts q) (hp : p.last.isEnd = true) : q.last.isEnd = true := by
  rw [h.last, hp]

theorem weight_le (h : p.Reaches ts q) : Parse.weight ts + Parse.weight q.ahead ≤ Parse.weight p.ahead := by
  have hle := (h.unfolds (.refl q.ahead)).weight_le
  rwa [weight_eq_tally, tally_append, ← weight_eq_tally, ← weight_eq_tally] at hle

theorem total_le (h : p.Reaches ts q) : total ts + total q.ahead ≤ total p.ahead := by
  have hle := (h.unfolds (.refl q.ahead)).total_le
  rwa [total_append] at hle

theorem advanced (hlast : p.last.isEnd = true) (h : p.current.isEnd = false) :
    p.Reaches [p.current] p.advanced := by
  obtain ⟨ts, hp⟩ := ahead_of_current hlast h
  have hadvanced := advanced_of_ahead hp h
  generalize p.current = t at hp hadvanced h
  rw [hadvanced]
  refine ⟨rfl, rfl, rfl, ?_⟩
  rw [hp]
  exact .token h (.stay ts)

/-- Going back to where the parser was keeps the expansions. -/
theorem rewound (h : p.Reaches ts q) : q.rewound p.mark = p.before (ts ++ q.ahead) := by
  obtain ⟨passed, ahead, last, table⟩ := q
  obtain ⟨rfl, rfl, rfl, -⟩ := h
  simp [Parser.rewound, Parser.mark, before, List.take_left', List.drop_left']

end Reaches

theorem ofTokens_last (tokens : List Token) (table : Precedence) :
    (ofTokens tokens table).last.isEnd = true := by
  rw [ofTokens]
  have hend : (endBehind tokens).isEnd = true := by
    rw [endBehind]
    split <;> rfl
  split
  · split
    · assumption
    · exact hend
  · exact hend

theorem expanded_eq (h : shorthandEnd? p.ahead = some n) :
    ∃ span rest, p.ahead = span ++ rest ∧ IsShorthand span ∧
      p.expanded n = p.before (expandShorthand span ++ rest) := by
  obtain ⟨span, rest, hp, hlen, hspan⟩ := isShorthand_of_end h
  refine ⟨span, rest, hp, hspan, ?_⟩
  rw [before, ← ahead_expanded hp hlen]
  rfl

end Parser

namespace Unfolds

variable {p : Parser}

/-- At the same place after expansions: the same token, and behind it one that blind tests cannot tell
apart; or the sign `<` of a shorthand has become a brace. -/
theorem current (h : Unfolds p.ahead us) :
    ((p.before us).current = p.current ∧
      ∀ test, Blind test → test ((p.before us).peek 1) = test (p.peek 1)) ∨
    (p.current.isOperator "<" = true ∧ (p.before us).current.isBracket "\x7b" = true ∧
      shorthandEnd? p.ahead ≠ none) := by
  have hagree : ∀ {ts us : List Token}, Unfolds ts us → ∀ test, Blind test →
      test (us[0]?.getD p.last) = test (ts[0]?.getD p.last) := by
    intro ts us h test ht
    rcases h.first with rfl | ⟨t, ts', us', rfl, rfl, -⟩ | ⟨t, u, ts', us', rfl, rfl, hangle, hbrace, -⟩
    · rfl
    · rfl
    · exact (ht.brace u hbrace).trans (ht.angle t hangle).symm
  rcases h.first with heq | ⟨t, ts', us', hp, rfl, h'⟩ | ⟨t, u, ts', us', hp, rfl, hangle, hbrace, hend⟩
  · subst heq
    exact Or.inl ⟨rfl, fun _ _ => rfl⟩
  · refine Or.inl ⟨(Parser.current_of_ahead hp).symm, fun test ht => ?_⟩
    have hpeek := hagree h' test ht
    rw [Parser.peek, Parser.peek, hp]
    exact hpeek
  · refine Or.inr ⟨?_, hbrace, hend⟩
    rw [Parser.current_of_ahead hp]
    exact hangle

theorem agree {test : Token → Bool} (h : Unfolds p.ahead us) (ht : Blind test) :
    test (p.before us).current = test p.current := by
  rcases h.current with ⟨heq, -⟩ | ⟨hangle, hbrace, -⟩
  · rw [heq]
  · rw [ht.angle _ hangle, ht.brace _ hbrace]

/-- A token that a blind test tells from a sign `<` is kept. -/
theorem kept {test : Token → Bool} (h : Unfolds p.ahead us) (ht : Blind test)
    (hp : test p.current = true) : (p.before us).current = p.current := by
  rcases h.current with ⟨heq, -⟩ | ⟨hangle, -, -⟩
  · exact heq
  · rw [ht.angle _ hangle] at hp
    cases hp

/-- Where no shorthand stands, none stands afterwards, and the token is kept. -/
theorem kept_of_none (h : Unfolds p.ahead us) (hnone : shorthandEnd? p.ahead = none) :
    (p.before us).current = p.current ∧ shorthandEnd? us = none := by
  refine ⟨?_, ?_⟩
  · rcases h.current with ⟨heq, -⟩ | ⟨-, -, hend⟩
    · exact heq
    · exact absurd hnone hend
  · rcases h.first with rfl | ⟨t, ts', us', hp, rfl, h'⟩ | ⟨-, -, -, -, -, -, -, -, hend⟩
    · exact hnone
    · rw [← h'.shorthandEnd_eq, ← hp, hnone]
    · exact absurd hnone hend

end Unfolds

/-! ### Guesses -/

/-- What the parser takes the parentheses ahead for that may begin an operand: a range or not. The
tokens of `back` stand before, the latest first. -/
def rangeGuesses (back : List Token) : List Token → List Bool
  | [] => []
  | t :: ts =>
    let behind := rangeGuesses (t :: back) ts
    if t.isBracket "(" && !opensArguments back then startsRange (t :: ts) :: behind else behind

theorem guesses_cons {t : Token} (ht : t.isBracket "(" = true) (hback : opensArguments back = false) :
    rangeGuesses back (t :: ts) = startsRange (t :: ts) :: rangeGuesses (t :: back) ts := by
  simp [rangeGuesses, ht, hback]

theorem guesses_behind {t u : Token} (ht : EndsSpelling t) (hu : EndsSpelling u)
    (front back back' : List Token) :
    rangeGuesses (front ++ t :: back) ts = rangeGuesses (front ++ u :: back') ts := by
  induction ts generalizing front with
  | nil => rfl
  | cons x ts ih =>
    have ih := ih (x :: front)
    rw [List.cons_append, List.cons_append] at ih
    rw [rangeGuesses, rangeGuesses, ih, opensArguments_behind ht hu]

theorem guesses_append (h : ∀ t ∈ us, t.isBracket "(" = false) (back : List Token) :
    rangeGuesses back (us ++ ts) = rangeGuesses (us.reverse ++ back) ts := by
  induction us generalizing back with
  | nil => rfl
  | cons u us ih =>
    have hu := h u List.mem_cons_self
    have ih := ih (fun t ht => h t (List.mem_cons_of_mem u ht)) (u :: back)
    rw [List.cons_append, rangeGuesses, ih, hu]
    simp

theorem IsShorthand.guesses {span : List Token} (h : IsShorthand span) (back ts : List Token) :
    rangeGuesses back (expandShorthand span ++ ts) = rangeGuesses back (span ++ ts) ∧
    rangeGuesses ((expandShorthand span).reverse ++ back) ts = rangeGuesses (span.reverse ++ back) ts := by
  obtain ⟨front, c, hspan, hc⟩ := h.ends
  obtain ⟨front', c', hexpansion, hc'⟩ := h.expansion_ends
  obtain ⟨hno, hno'⟩ := h.no_parenthesis
  have hbehind : rangeGuesses ((expandShorthand span).reverse ++ back) ts =
      rangeGuesses (span.reverse ++ back) ts := by
    rw [hexpansion, hspan, List.reverse_append, List.reverse_append]
    exact guesses_behind hc' hc [] _ _
  refine ⟨?_, hbehind⟩
  rw [guesses_append hno, guesses_append hno', hbehind]

/-- Guesses that agree on all tokens agree on those that are still ahead. -/
theorem Passes.guesses (h : Passes ts us vs) (back : List Token)
    (heq : rangeGuesses back ts = rangeGuesses back (us ++ ws)) :
    rangeGuesses (us.reverse ++ back) vs = rangeGuesses (us.reverse ++ back) ws := by
  induction h generalizing back with
  | stay ts => exact heq
  | @token t _ ts us vs _ ih =>
    rw [List.cons_append, rangeGuesses, rangeGuesses] at heq
    have hbehind : rangeGuesses (t :: back) ts = rangeGuesses (t :: back) (us ++ ws) := by
      cases hguess : t.isBracket "(" && !opensArguments back with
      | false => simpa [hguess] using heq
      | true =>
        simp only [hguess, if_true, List.cons.injEq] at heq
        exact heq.2
    have ih := ih (t :: back) hbehind
    simpa using ih
  | expand hspan _ ih =>
    refine ih back ?_
    rw [(hspan.guesses back _).1]
    exact heq

/-- The guesses in an expression that begins here. -/
def Parser.guesses (p : Parser) : List Bool := rangeGuesses [] p.ahead

end EventRules
