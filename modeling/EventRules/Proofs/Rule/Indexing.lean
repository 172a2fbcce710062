import EventRules.Proofs.Rule.Expanding
import EventRules.Rule.Parser.Indexed

/-!
# The place of a parser as an index

A parser that keeps the tokens on both sides of its place answers what the one with an index answers, and an
index in range is such a place. So no step of the parser with the index leaves its list: one step keeps
the index and the marks among the tokens and an end token behind them, and then a run does.
-/

namespace EventRules
set_option autoImplicit false

open Token IndexedParser

/-! ### Lookaheads -/

/-- Lookaheads do not see the end token. -/
theorem shorthandEnd_ended {last : Token} (hlast : last.isEnd = true) (ts : List Token) :
    shorthandEnd? (ts ++ [last]) = shorthandEnd? ts := by
  have hkind : last.kind = .endOfInput := by simpa [isEnd] using hlast
  have hvalue : last.isShorthandValue = false := by simp [isShorthandValue, isScalar, hkind]
  have hvalues : ∀ ts : List Token, shorthandValues? (ts ++ [last]) = shorthandValues? ts := by
    intro ts
    induction ts using shorthandValues?.induct with
    | case1 value separator ts hv hcomma ih => simp [shorthandValues?, hv, hcomma, ih]
    | case2 value separator ts hv hcomma hclosing => simp [shorthandValues?, hv, hcomma, hclosing]
    | case3 value separator ts hv hcomma hclosing => simp [shorthandValues?, hv, hcomma, hclosing]
    | case4 value separator ts hv => simp [shorthandValues?, hv]
    | case5 ts hts =>
      rcases ts with _ | ⟨t, _ | ⟨u, us⟩⟩
      · rfl
      · simp [shorthandValues?, not_operator_of_end hlast]
      · exact absurd rfl (hts t u us)
  cases ts with
  | nil => simp [shorthandEnd?, not_operator_of_end hlast]
  | cons t ts => rw [List.cons_append, shorthandEnd?, shorthandEnd?, hvalues]

theorem startsRange_ended {last : Token} (hlast : last.isEnd = true) (ts : List Token) :
    startsRange (ts ++ [last]) = startsRange ts := by
  have hkind : last.kind = .endOfInput := by simpa [isEnd] using hlast
  have hgroup : ∀ (ts : List Token) (depth commas : Nat),
      endsWithOneComma (ts ++ [last]) depth commas = endsWithOneComma ts depth commas := by
    intro ts
    induction ts with
    | nil => simp [endsWithOneComma, hkind]
    | cons t ts ih => simp [endsWithOneComma, ih]
  exact hgroup ts 0 0

/-! ### Slices -/

namespace IndexedParser

variable {s : IndexedParser} {xs ys zs : List Token}

theorem slice_of_append (h : s.tokens = xs ++ (ys ++ zs)) :
    s.slice? xs.length (xs.length + ys.length) = some ys := by
  have htake : (xs ++ (ys ++ zs)).take (xs.length + ys.length) = xs ++ ys := by
    rw [← List.append_assoc, List.take_left' List.length_append]
  rw [slice?, h, htake, List.drop_left, if_pos]
  simp only [List.length_append]
  omega

theorem slice_front (h : s.tokens = xs ++ ys) : s.slice? 0 xs.length = some xs := by
  rw [slice?, h, List.take_left, if_pos]
  · rfl
  · simp

theorem slice_behind (h : s.tokens = xs ++ ys) : s.slice? xs.length s.tokens.length = some ys := by
  rw [slice?, List.take_length, h, List.drop_left, if_pos]
  simp

/-- The tokens around the span stay. -/
theorem spliced_of_append {stop : Nat} (h : s.tokens = xs ++ (ys ++ zs)) (hcursor : s.cursor = xs.length)
    (hstop : stop + 1 = xs.length + ys.length) :
    s.spliced? stop = some { s with tokens := xs ++ expandShorthand ys ++ zs } := by
  have hfront := slice_front h
  have hspan := slice_of_append h
  have hbehind := slice_behind (h.trans (List.append_assoc xs ys zs).symm)
  rw [List.length_append] at hbehind
  rw [spliced?, hcursor, hstop, hfront, hspan, hbehind]
  rfl

end IndexedParser

namespace Parser

variable {p : Parser} {ms : List Nat} {n k : Nat}

theorem peek_tokens (p : Parser) {n : Nat} (h : p.mark + n < p.tokens.length) :
    p.tokens[p.mark + n]? = some (p.peek n) := by
  rw [length_tokens] at h
  have hplace : p.mark + n - p.passed.reverse.length = n := by simp [mark]
  rw [tokens, List.append_assoc, List.getElem?_append_right (by simp [mark]), hplace, peek]
  by_cases hn : n < p.ahead.length
  · rw [List.getElem?_append_left hn, List.getElem?_eq_getElem hn, Option.getD_some]
  · obtain rfl : n = p.ahead.length := by omega
    simp

theorem tokens_ofTokens (tokens : List Token) (table : Precedence) :
    (ofTokens tokens table).tokens = closed tokens := by
  rcases List.eq_nil_or_concat tokens with rfl | ⟨ts, t, rfl⟩
  · rfl
  · rw [List.concat_eq_append]
    cases ht : t.isEnd with
    | true => rw [ofTokens_ended ht, closed]; simp [Parser.tokens, ht]
    | false => rw [ofTokens_open rfl ht, closed]; simp [Parser.tokens, ht]

theorem start_of_ofTokens (tokens : List Token) (table : Precedence) :
    (ofTokens tokens table).mark = 0 ∧ (ofTokens tokens table).table = table := by
  rw [ofTokens]
  split
  · split <;> exact ⟨rfl, rfl⟩
  · exact ⟨rfl, rfl⟩

/-! ### The same answers -/

theorem indexed_ofTokens (tokens : List Token) (table : Precedence) :
    (ofTokens tokens table).indexed = IndexedParser.ofTokens tokens table := by
  obtain ⟨hmark, htable⟩ := start_of_ofTokens tokens table
  rw [indexed, tokens_ofTokens, hmark, htable]
  rfl

theorem peek_indexed (p : Parser) (n : Nat) : p.indexed.peek? n = some (p.peek n) := by
  have hlength := p.length_tokens
  have hplace : min (p.mark + n) (p.tokens.length - 1) = p.mark + min n p.ahead.length := by omega
  have hpeek : p.peek (min n p.ahead.length) = p.peek n := by
    rcases Nat.le_total n p.ahead.length with hn | hn
    · rw [Nat.min_eq_left hn]
    · rw [Nat.min_eq_right hn, peek, peek, List.getElem?_eq_none hn, List.getElem?_eq_none (Nat.le_refl _)]
  change p.tokens[min (p.mark + n) (p.tokens.length - 1)]? = _
  rw [hplace, p.peek_tokens (by omega), hpeek]

theorem advanced_of_end (h : p.current.isEnd = true) : p.advanced = p := by
  rw [advanced]
  split
  · next t ts hp =>
    rw [current_of_ahead hp] at h
    rw [if_pos h]
  · rfl

theorem advance_indexed (hlast : p.last.isEnd = true) :
    p.indexed.advance? = some (p.current, p.advanced.indexed) := by
  have hcurrent : p.indexed.peek? 0 = some p.current := p.peek_indexed 0
  rw [advance?, hcurrent]
  cases hend : p.current.isEnd with
  | true =>
    rw [advanced_of_end hend]
    simp [hend]
  | false =>
    obtain ⟨ts, hp⟩ := ahead_of_current hlast hend
    rw [advanced_of_ahead hp hend]
    simp [hend, indexed, tokens, mark, hp]

theorem rest_indexed (p : Parser) : p.indexed.rest? = some (p.ahead ++ [p.last]) := by
  have htokens : p.indexed.tokens = p.passed.reverse ++ (p.ahead ++ [p.last]) := List.append_assoc _ _ _
  have hslice := slice_behind htokens
  rwa [List.length_reverse] at hslice

theorem spliced_indexed (h : shorthandEnd? p.ahead = some n) :
    p.indexed.spliced? (p.mark + n) = some (p.expanded n).indexed := by
  obtain ⟨span, rest, hp, hlength, -⟩ := isShorthand_of_end h
  have htokens : p.indexed.tokens = p.passed.reverse ++ (span ++ (rest ++ [p.last])) := by
    simp [indexed, tokens, hp]
  have hexpanded : (p.expanded n).tokens = p.passed.reverse ++ expandShorthand span ++ (rest ++ [p.last]) := by
    rw [tokens, ahead_expanded hp hlength]
    simp [expanded]
  have hmark : p.mark = p.passed.reverse.length := List.length_reverse.symm
  rw [spliced_of_append htokens hmark (by omega), ← hexpanded]
  rfl

theorem rewound_indexed (h : k < p.tokens.length) : (p.rewound k).indexed = p.indexed.rewound k := by
  rw [indexed, mark_rewound h, tokens_rewound]
  rfl

/-- The parser answers what the one with the index answers, and moves as that does. -/
structure Refines (p : Parser) : Prop where
  peek : ∀ n, p.indexed.peek? n = some (p.peek n)
  advance : p.indexed.advance? = some (p.current, p.advanced.indexed)
  rest : p.indexed.rest? = some (p.ahead ++ [p.last])
  shorthand : shorthandEnd? (p.ahead ++ [p.last]) = shorthandEnd? p.ahead
  range : startsRange (p.ahead ++ [p.last]) = startsRange p.ahead
  splice : ∀ n, shorthandEnd? p.ahead = some n →
    p.indexed.spliced? (p.mark + n) = some (p.expanded n).indexed
  rewind : ∀ k < p.tokens.length, (p.rewound k).indexed = p.indexed.rewound k

theorem refines (hlast : p.last.isEnd = true) : p.Refines where
  peek := p.peek_indexed
  advance := advance_indexed hlast
  rest := p.rest_indexed
  shorthand := shorthandEnd_ended hlast p.ahead
  range := startsRange_ended hlast p.ahead
  splice _ := spliced_indexed
  rewind _ := rewound_indexed

theorem indexed_valid (hlast : p.last.isEnd = true) (hms : ∀ k ∈ ms, k < p.tokens.length) :
    p.indexed.Valid ms := by
  have hlength := p.length_tokens
  exact ⟨⟨_, p.last, rfl, hlast⟩, (by omega : p.mark < p.tokens.length), hms⟩

end Parser

/-! ### Places in range -/

namespace IndexedParser

variable {s : IndexedParser} {ms : List Nat}

/-- An index in range is a place between tokens. -/
theorem Valid.exists_parser (h : s.Valid ms) : ∃ p : Parser, p.last.isEnd = true ∧ p.indexed = s := by
  obtain ⟨tokens, cursor, table⟩ := s
  obtain ⟨⟨front, t, rfl, ht⟩, hcursor, -⟩ := h
  have hle : cursor ≤ front.length := by
    change cursor < (front ++ [t]).length at hcursor
    rw [List.length_append, List.length_singleton] at hcursor
    omega
  refine ⟨⟨(front.take cursor).reverse, front.drop cursor, t, table⟩, ht, ?_⟩
  simp [Parser.indexed, Parser.tokens, Parser.mark, hle]

theorem Valid.inRange (h : s.Valid ms) : s.InRange := by
  obtain ⟨p, hlast, rfl⟩ := h.exists_parser
  refine ⟨fun n => ⟨_, p.peek_indexed n⟩, ⟨_, Parser.advance_indexed hlast⟩, ⟨_, p.rest_indexed⟩,
    fun ts n hts hend => ?_⟩
  rw [p.rest_indexed] at hts
  cases hts
  rw [shorthandEnd_ended hlast] at hend
  exact ⟨_, Parser.spliced_indexed hend⟩

/-- No step leaves the tokens: a splice makes the list no shorter, and an end token is never passed. -/
theorem Step.valid {a b : IndexedParser × List Nat} (h : Step a b) (ha : a.1.Valid a.2) : b.1.Valid b.2 := by
  obtain ⟨p, hlast, hp⟩ := ha.exists_parser
  have hknown := ha.known
  cases h with
  | @advance s s' t ms h =>
    obtain rfl : p.indexed = s := hp
    rw [Parser.advance_indexed hlast] at h
    cases h
    refine Parser.indexed_valid (Parser.last_advanced p ▸ hlast) fun k hk => ?_
    rw [Parser.tokens_advanced]
    exact hknown k hk
  | @splice s s' ts n ms hts hend h =>
    obtain rfl : p.indexed = s := hp
    rw [p.rest_indexed] at hts
    cases hts
    rw [shorthandEnd_ended hlast] at hend
    have hexpanded : p.indexed.spliced? (p.mark + n) = some s' := h
    rw [Parser.spliced_indexed hend] at hexpanded
    cases hexpanded
    obtain ⟨span, rest, hahead, hspan, heq⟩ := Parser.expanded_eq hend
    have hle := hspan.length_le
    refine Parser.indexed_valid (by rw [heq]; exact hlast) fun k hk => ?_
    have hlt : k < p.tokens.length := hknown k hk
    rw [Parser.length_tokens, hahead, List.length_append] at hlt
    rw [heq, Parser.length_tokens, Parser.before_ahead, List.length_append]
    change k < p.mark + _ + 1
    omega
  | mark s ms =>
    refine ⟨ha.ended, ha.cursor, fun k hk => ?_⟩
    rcases List.mem_cons.mp hk with rfl | hk
    · exact ha.cursor
    · exact hknown k hk
  | rewind s known => exact ⟨ha.ended, hknown _ known, hknown⟩
  | install s ms table => exact ⟨ha.ended, ha.cursor, hknown⟩

theorem Steps.valid {a b : IndexedParser × List Nat} (h : Steps a b) (ha : a.1.Valid a.2) : b.1.Valid b.2 := by
  induction h with
  | refl => exact ha
  | tail _ hstep ih => exact hstep.valid ih

theorem ofTokens_valid (tokens : List Token) (table : Precedence) : (ofTokens tokens table).Valid [] := by
  rw [← Parser.indexed_ofTokens]
  exact Parser.indexed_valid (Parser.ofTokens_last tokens table) nofun

end IndexedParser

/-! ### What a parser passes -/

theorem IsShorthand.shorthandEnd_eq {span : List Token} (h : IsShorthand span) :
    ∃ n, span.length = n + 1 ∧ ∀ ts, shorthandEnd? (span ++ ts) = some n := by
  obtain ⟨values, hne, hvalues, hspan⟩ := h
  exact shorthandEnd_of_spelled hne hvalues hspan

theorem Passes.steps {ts us vs : List Token} (h : Passes ts us vs) {last : Token} (hlast : last.isEnd = true)
    (passed : List Token) (table : Precedence) (ms : List Nat) :
    Steps (Parser.indexed ⟨passed, ts, last, table⟩, ms)
      (Parser.indexed ⟨us.reverse ++ passed, vs, last, table⟩, ms) := by
  induction h generalizing passed with
  | stay ts => exact .refl
  | @token t ht ts us vs _ ih =>
    have hadvance := Parser.advance_indexed (p := ⟨passed, t :: ts, last, table⟩) hlast
    rw [Parser.advanced_of_ahead (p := ⟨passed, t :: ts, last, table⟩) rfl ht] at hadvance
    have hrest := ih (t :: passed)
    rw [List.reverse_cons, List.append_assoc, List.singleton_append]
    exact .head (.advance ms hadvance) hrest
  | @expand span ts us vs hspan _ ih =>
    obtain ⟨n, hlength, hend⟩ := hspan.shorthandEnd_eq
    have hexpanded : Parser.expanded ⟨passed, span ++ ts, last, table⟩ n =
        ⟨passed, expandShorthand span ++ ts, last, table⟩ := by
      simp [Parser.expanded, ← hlength]
    have hsplice := Parser.spliced_indexed (p := ⟨passed, span ++ ts, last, table⟩) (hend ts)
    rw [hexpanded] at hsplice
    have hrest := Parser.rest_indexed ⟨passed, span ++ ts, last, table⟩
    exact .head (.splice ms hrest ((shorthandEnd_ended hlast _).trans (hend ts)) hsplice) (ih passed)

theorem Parser.Reaches.steps {p q : Parser} {ts : List Token} (h : p.Reaches ts q) (hlast : p.last.isEnd = true)
    (ms : List Nat) : Steps (p.indexed, ms) (q.indexed, ms) := by
  obtain ⟨passed, ahead, last, table⟩ := q
  obtain ⟨rfl, rfl, rfl, hahead⟩ := h
  exact hahead.steps hlast p.passed p.table ms

end EventRules
