import EventRules.Proofs.Lowering.Bounds
import EventRules.Proofs.Matching.Constants
import EventRules.Proofs.Rule.Numerals
import EventRules.Proofs.Rule.RoundTrip

/-!
# Ranges of integers

The text of a range between two integers compiles, whatever the integers are, and the rule holds on the
integers that lie between them.
-/

namespace EventRules
set_option autoImplicit false

open Routine Lexer Lowering

/-! ### The text -/

def openingText (included : Bool) : Char := if included then '[' else '('

def closingText (included : Bool) : Char := if included then ']' else ')'

/-- The text of a range; a bound that is included stands beside a square bracket. -/
def rangeText (lowerIncluded upperIncluded : Bool) (a b : Int64) : String :=
  String.singleton (openingText lowerIncluded) ++ toString a.toInt ++ "," ++ toString b.toInt ++
    String.singleton (closingText upperIncluded)

theorem rangeText_characters (lowerIncluded upperIncluded : Bool) (a b : Int64) :
    (rangeText lowerIncluded upperIncluded a b).toList = openingText lowerIncluded ::
      (numeral a.toInt ++ ',' :: (numeral b.toInt ++ [closingText upperIncluded])) := by
  simp [rangeText, numeral]

theorem tokenizes_range (lowerIncluded upperIncluded : Bool) (a b : Int64) :
    (Lexer.ofText (rangeText lowerIncluded upperIncluded a b)).Tokenizes
      [(.bracket, String.singleton (openingText lowerIncluded)), (.integer, toString a.toInt),
        (.operator, ","), (.integer, toString b.toInt),
        (.bracket, String.singleton (closingText upperIncluded)), (.endOfInput, "")] := by
  have hopening : openingText lowerIncluded ∈ ['(', ')', '[', ']'] := by
    cases lowerIncluded <;> decide
  have hbehind : ((.bracket, String.singleton (openingText lowerIncluded)) : TokenKind × String) ∈
      [(.bracket, "("), (.bracket, "["), (.operator, ",")] := by
    cases lowerIncluded <;> decide
  have hclosing : closingText upperIncluded ∈ ['(', ')', '[', ']'] := by
    cases upperIncluded <;> decide
  have hends : closingText upperIncluded ∈ [',', ')', ']'] := by
    cases upperIncluded <;> decide
  refine tokenizes_bracket (rangeText_characters lowerIncluded upperIncluded a b) hopening ?_
  intro l hrest hprevious
  refine tokenizes_numeral hrest (numberBehind hprevious hbehind) (endsNumber (by decide) _) ?_
  intro l hrest _
  refine tokenizes_comma hrest ?_
  intro l hrest hprevious
  refine tokenizes_numeral hrest (numberBehind hprevious (by decide)) (endsNumber hends _) ?_
  intro l hrest _
  refine tokenizes_bracket hrest hclosing ?_
  intro l hrest _
  exact tokenizes_end hrest

/-! ### The expression -/

namespace Parse

variable {e : Expr} {opening last : Token} {ts : List Token}

theorem reads_whole_expression (he : e.Writable false) (hts : Spells e.operandMarks ts)
    (hlast : last.isEnd = true) : Reads expression .standard last ts [] e := by
  refine Reads.state_bind fun passed => ?_
  rw [List.append_nil]
  have hn := readsWritten_nested (weight ts + 1)
  have hlength := length_le_weight ts
  exact hn.operand he hts (by omega) (ends_end hlast _)

theorem reads_bare (nested : Parse Statement) (h : Reads expression .standard last (opening :: ts) [] e)
    (ho : opening.kind = .bracket) :
    Reads (statement nested) .standard last (opening :: ts) [] (.bare e) := by
  refine Reads.state_bind fun passed => ?_
  have hcurrent : Parser.current ⟨passed, opening :: ts ++ [], last, .standard⟩ = opening := rfl
  simp only [hcurrent, Token.isKeyword, Token.isName, ho]
  exact Reads.settle h (Reads.pure _)

end Parse

/-- An expression that begins with a bracket and stands alone is a program. -/
theorem parse_bracketed {e : Expr} {opening last : Token} {ts : List Token} (he : e.Writable false)
    (hts : Spells e.operandMarks (opening :: ts)) (ho : opening.kind = .bracket)
    (hlast : last.isEnd = true) : parseProgram (opening :: ts ++ [last]) = .ok [.bare e] := by
  have hexpression := Parse.reads_whole_expression he hts hlast
  have hnone : (Parse.follower last []).isOperator ";" = false := by
    have hkind : last.kind = .endOfInput := by simpa [Token.isEnd] using hlast
    simp [Parse.follower, Token.isOperator, hkind]
  have hend : Parse.Reads Parse.expectEnd .standard last [] [] () :=
    Parse.Reads.sees_bind true hlast (Parse.Reads.pure ())
  have hstatements : ∀ depth, Parse.Reads
      (Parse.statements Token.isEnd (Parse.nestedStatement (depth + 1))) .standard last (opening :: ts) []
      [.bare e] := by
    intro depth
    refine Parse.Reads.state_bind fun passed => ?_
    refine Parse.Reads.peek Parse.Reads.current ?_
    have hopen : opening.isEnd = false := not_end_of_kind (by simp [ho])
    simp only [List.append_nil, Parse.follower_cons, hopen, Bool.or_self, Bool.false_eq_true, if_false]
    refine Parse.Reads.settle (Parse.reads_bare _ hexpression ho) ?_
    exact Parse.Reads.peek (Parse.Reads.many_none hnone) (Parse.Reads.pure _)
  have hprogram : Parse.Reads Parse.program .standard last (opening :: ts) [] [.bare e] := by
    refine Parse.Reads.state_bind fun passed => ?_
    exact Parse.Reads.settle (hstatements _) (Parse.Reads.peek hend (Parse.Reads.pure _))
  have hrun := hprogram []
  rw [List.append_nil] at hrun
  rw [parseProgram, Parser.ofTokens_ended hlast, hrun]

theorem literalOf_numeral {t : Token} {a : Int64} (h : t.content = (.integer, toString a.toInt)) :
    t.isScalar = true ∧ Parse.literalOf t = .ok (.integer a) := by
  obtain ⟨kind, text, position⟩ := t
  obtain ⟨rfl, rfl⟩ := Prod.mk.inj h
  have hread : Number.readInt? (toString a.toInt).toList = some a.toInt := readInt_numeral a.toInt
  refine ⟨rfl, ?_⟩
  simp only [Parse.literalOf, hread, Option.bind_some, Number.fit64_eq_some_iff.mpr rfl]

/-- What a range between two integers reads as. -/
theorem parse_range (lowerIncluded upperIncluded : Bool) (a b : Int64) :
    ∃ opening x y closing,
      parseSource (rangeText lowerIncluded upperIncluded a b) =
        .ok [.bare (.range opening (.scalar (.integer a) x) (.scalar (.integer b) y) closing)] ∧
      opening.isInclusive = lowerIncluded ∧ closing.isInclusive = upperIncluded := by
  obtain ⟨ts, htokens, hcontents⟩ := tokenizes_range lowerIncluded upperIncluded a b
  simp only [List.map_eq_cons_iff, List.map_eq_nil_iff] at hcontents
  obtain ⟨opening, _, rfl, hopening, x, _, rfl, hx, comma, _, rfl, hcomma, y, _, rfl, hy, closing, _, rfl,
    hclosing, last, _, rfl, hlast, rfl⟩ := hcontents
  obtain ⟨hok, hot⟩ := Prod.mk.inj hopening
  obtain ⟨hck, hct⟩ := Prod.mk.inj hclosing
  have hinclusive : opening.isInclusive = lowerIncluded ∧ closing.isInclusive = upperIncluded := by
    rw [Token.isInclusive, Token.isInclusive, Token.isBracket, Token.isBracket, Token.isBracket,
      Token.isBracket, hok, hot, hck, hct]
    cases lowerIncluded <;> cases upperIncluded <;> decide
  refine ⟨opening, x, y, closing, ?_, hinclusive⟩
  have hwritable : (Expr.range opening (.scalar (.integer a) x) (.scalar (.integer b) y) closing).Writable
      false := by
    refine ⟨?_, literalOf_numeral hx, literalOf_numeral hy, ?_⟩
    · rw [Token.isBracket, Token.isBracket, hok, hot]
      cases lowerIncluded <;> decide
    · rw [Token.isBracket, Token.isBracket, hck, hct]
      cases upperIncluded <;> decide
  have hspells : Spells (Expr.range opening (.scalar (.integer a) x) (.scalar (.integer b) y)
      closing).operandMarks [opening, x, comma, y, closing] := by
    rw [Expr.operandMarks_range]
    exact .cons rfl (.cons rfl (.cons (Prod.mk.inj hcomma) (.cons rfl (.cons rfl .nil))))
  have hend : last.isEnd = true := by
    have hkind : last.kind = .endOfInput := congrArg Prod.fst hlast
    simp [Token.isEnd, hkind]
  have hparse := parse_bracketed hwritable hspells hok hend
  have htokenize : tokenize (rangeText lowerIncluded upperIncluded a b) =
      .ok (opening :: [x, comma, y, closing] ++ [last]) := htokens
  rw [parseSource, htokenize]
  change (parseProgram (opening :: [x, comma, y, closing] ++ [last])).mapError CompileError.grammar = _
  rw [hparse]
  rfl

/-! ### The rule -/

def lowerComparison (included : Bool) : CompareOp := if included then .greaterEqual else .greater

def upperComparison (included : Bool) : CompareOp := if included then .lessEqual else .less

theorem compile_range (registry : Registry) (constants : List (String × Value))
    (lowerIncluded upperIncluded : Bool) (a b : Int64) :
    ∃ rule, compile registry constants (rangeText lowerIncluded upperIncluded a b) = .ok rule ∧
      rule.entry = .binary .and
        (.compare (lowerComparison lowerIncluded) (.literal (.integer a)))
        (.compare (upperComparison upperIncluded) (.literal (.integer b))) := by
  obtain ⟨opening, x, y, closing, hparse, hlower, hupper⟩ := parse_range lowerIncluded upperIncluded a b
  rw [compile_eq, selected_of_bare hparse]
  refine ⟨⟨rangeText lowerIncluded upperIncluded a b, .binary .and
    (.compare opening.lowerOp (.literal (.integer a))) (.compare closing.upperOp (.literal (.integer b))),
    [], bindAll constants, registry, []⟩, ?_, ?_⟩
  · rfl
  · simp only [Token.lowerOp, Token.upperOp, hlower, hupper, lowerComparison, upperComparison]

theorem compare_integers (op : CompareOp) (v a : Int64) :
    Value.compare op (.integer v) (.integer a) = op.holds (compare v.toInt a.toInt) := by
  rw [Value.compare_decimals op rfl rfl, Number.Decimal.compare_unscaled rfl rfl]
  rfl

theorem compare_lower (included : Bool) (v a : Int64) :
    Value.compare (lowerComparison included) (.integer v) (.integer a) =
      decide (if included then a ≤ v else a < v) := by
  rw [compare_integers]
  cases included with
  | true =>
    simp only [lowerComparison, if_true, CompareOp.holds, Int64.le_iff_toInt_le]
    rw [Bool.eq_iff_iff, bne_iff_ne, decide_eq_true_iff, ne_eq, Int.compare_eq_lt, Int.not_lt]
  | false =>
    simp only [lowerComparison, Bool.false_eq_true, if_false, CompareOp.holds, Int64.lt_iff_toInt_lt]
    rw [Bool.eq_iff_iff, beq_iff_eq, decide_eq_true_iff, Int.compare_eq_gt]

theorem compare_upper (included : Bool) (v b : Int64) :
    Value.compare (upperComparison included) (.integer v) (.integer b) =
      decide (if included then v ≤ b else v < b) := by
  rw [compare_integers]
  cases included with
  | true =>
    simp only [upperComparison, if_true, CompareOp.holds, Int64.le_iff_toInt_le]
    rw [Bool.eq_iff_iff, bne_iff_ne, decide_eq_true_iff, ne_eq, Int.compare_eq_gt, Int.not_lt]
  | false =>
    simp only [upperComparison, Bool.false_eq_true, if_false, CompareOp.holds, Int64.lt_iff_toInt_lt]
    rw [Bool.eq_iff_iff, beq_iff_eq, decide_eq_true_iff, Int.compare_eq_lt]

/-- The text of a range between two integers in decimal compiles, and the rule holds on an integer
exactly if it lies between them, beside a round bracket strictly. -/
theorem range_holds_between (registry : Registry) (constants : List (String × Value))
    (lowerIncluded upperIncluded : Bool) (a b : Int64) :
    ∃ rule, compile registry constants (rangeText lowerIncluded upperIncluded a b) = .ok rule ∧
      ∀ env id v time, ((⟨rule, env⟩ : Matcher).feed ⟨id, .integer v, time⟩).1.result =
        .ok (decide ((if lowerIncluded then a ≤ v else a < v) ∧
          (if upperIncluded then v ≤ b else v < b))) := by
  obtain ⟨rule, hcompile, hentry⟩ := compile_range registry constants lowerIncluded upperIncluded a b
  refine ⟨rule, hcompile, ?_⟩
  intro env id v time
  have hrun := run_range (lowerComparison lowerIncluded) (upperComparison upperIncluded) (.integer a)
    (.integer b) (.integer v) ⟨⟨id, .integer v, time⟩, none, rule.fragments, rule.registry⟩ ⟨env, []⟩
  rw [← hentry] at hrun
  obtain ⟨hresult, -⟩ := Matcher.feed_run (m := ⟨rule, env⟩) hrun
  rw [hresult, compare_lower, compare_upper, ← Bool.decide_and]
  rfl

end EventRules
