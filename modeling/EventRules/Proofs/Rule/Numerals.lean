import EventRules.Proofs.Rule.Spacing
import EventRules.Rule.Parser.Expression

/-!
# Integers in rule text

A whole number in decimal is one token wherever a minus may begin a number and what follows neither goes
on with the number nor is a unit of time, and the token reads as that number.
-/

namespace EventRules
set_option autoImplicit false

open Number Text

/-! ### The characters of an integer -/

/-- An integer in decimal. -/
def numeral (n : Int) : List Char := (toString n).toList

theorem numeral_of_nat (n : Nat) : numeral n = Nat.toDigits 10 n := Nat.toList_repr

theorem numeral_of_negative (n : Nat) : numeral (Int.negSucc n) = '-' :: Nat.toDigits 10 (n + 1) := by
  have hsplit : numeral (Int.negSucc n) = ("-" ++ (n + 1).repr).toList := rfl
  rw [hsplit, String.toList_append, Nat.toList_repr]
  rfl

theorem digits_are_digits (n : Nat) : ∀ c ∈ Nat.toDigits 10 n, c.isDigit = true :=
  fun _ => Nat.isDigit_of_mem_toDigits (by decide) (by decide)

theorem digits_cons (n : Nat) : ∃ d ds, Nat.toDigits 10 n = d :: ds ∧ d.isDigit = true := by
  obtain ⟨d, ds, hds⟩ := List.exists_cons_of_ne_nil (Nat.toDigits_ne_nil (n := n) (b := 10))
  refine ⟨d, ds, hds, digits_are_digits n d ?_⟩
  rw [hds]
  exact List.mem_cons_self

theorem ofDigits_digits (n : Nat) : ofDigits (Nat.toDigits 10 n) = n :=
  Nat.ofDigitChars_toDigits (by decide) (by decide)

theorem read_digits {d : Char} {ds : List Char} (h : ∀ c ∈ d :: ds, c.isDigit = true) :
    readInt? (d :: ds) = some (ofDigits (d :: ds) : Int) ∧
      readInt? ('-' :: d :: ds) = some (-(ofDigits (d :: ds) : Int)) := by
  have hany : (d :: ds).any (fun c => !c.isDigit) = false := by simpa using h
  have hd : d.isDigit = true := h d List.mem_cons_self
  refine ⟨?_, ?_⟩
  · unfold readInt?
    split
    · next heq =>
      cases heq
      cases hd
    · next heq =>
      cases heq
      cases hd
    · simp [hany]
  · simp [readInt?, hany]

theorem readInt_numeral (n : Int) : readInt? (numeral n) = some n := by
  cases n with
  | ofNat k =>
    obtain ⟨d, ds, hds, -⟩ := digits_cons k
    have hdigits := digits_are_digits k
    have hvalue := ofDigits_digits k
    change readInt? (numeral (k : Int)) = some (k : Int)
    rw [numeral_of_nat]
    rw [hds] at hdigits hvalue ⊢
    rw [(read_digits hdigits).1, hvalue]
  | negSucc k =>
    obtain ⟨d, ds, hds, -⟩ := digits_cons (k + 1)
    have hdigits := digits_are_digits (k + 1)
    have hvalue := ofDigits_digits (k + 1)
    rw [numeral_of_negative]
    rw [hds] at hdigits hvalue ⊢
    rw [(read_digits hdigits).2, hvalue]
    rfl

/-! ### The token of an integer -/

namespace Lexer

/-- What follows a number, if it neither goes on with it nor is a unit of time. -/
structure EndsNumber (rest : List Char) : Prop where
  no_digit : ∀ c ∈ rest.head?, c.isDigit = false
  no_point : ∀ c ∈ rest.head?, c ≠ '.'
  no_unit : durationUnit? rest = none

variable {previous : Option Token} {rest : List Char}

theorem readUnsigned_digits (n : Nat) (h : EndsNumber rest) :
    readUnsigned (Nat.toDigits 10 n ++ rest) = (.integer, Nat.toDigits 10 n) := by
  rw [unsigned_of_no_point (digits_are_digits n) h.no_digit h.no_point, h.no_unit]

/-- A number may stand behind the token, a minus before it belongs to it. -/
def NumberBehind (previous : Option Token) : Prop :=
  ∀ d ds, d.isDigit = true → minusStartsNumber previous (d :: ds) = true

theorem plain_numeral (n : Int) (hprevious : NumberBehind previous) (h : EndsNumber rest) :
    ∃ c cs, numeral n ++ rest = c :: cs ∧ (c = '-' ∨ c.isDigit = true) ∧
      Plain previous c cs .integer (numeral n) := by
  cases n with
  | ofNat k =>
    obtain ⟨d, ds, hds, hd⟩ := digits_cons k
    have hread := readUnsigned_digits k h
    change ∃ c cs, numeral (k : Int) ++ rest = c :: cs ∧ _ ∧ Plain previous c cs .integer (numeral (k : Int))
    rw [numeral_of_nat]
    rw [hds, List.cons_append] at hread ⊢
    have hplain : Plain previous d (ds ++ rest) _ _ := .number (by simp [startsNumber, hd])
    rw [number_of_digit hd, hread] at hplain
    exact ⟨d, ds ++ rest, rfl, .inr hd, hplain⟩
  | negSucc k =>
    obtain ⟨d, ds, hds, hd⟩ := digits_cons (k + 1)
    have hread := readUnsigned_digits (k + 1) h
    rw [numeral_of_negative]
    have hstarts : startsNumber previous '-' (Nat.toDigits 10 (k + 1) ++ rest) = true := by
      rw [hds, List.cons_append, startsNumber, hprevious d _ hd]
      rfl
    have hplain : Plain previous '-' (Nat.toDigits 10 (k + 1) ++ rest) _ _ := .number hstarts
    rw [readNumber, hread] at hplain
    exact ⟨'-', Nat.toDigits 10 (k + 1) ++ rest, rfl, .inl rfl, hplain⟩

/-! ### Tokens one after the other -/

/-- The character begins a token that is no string. -/
structure StartsPlain (c : Char) : Prop where
  not_blank : isBlank c = false
  no_double_quote : c ≠ '"'
  no_single_quote : c ≠ '\''

theorem StartsPlain.digit {c : Char} (h : c.isDigit = true) : StartsPlain c := by
  have hrange : 48 ≤ c.toNat ∧ c.toNat ≤ 57 := by
    simpa [Char.isDigit, UInt32.le_iff_toNat_le] using h
  refine ⟨?_, ?_, ?_⟩
  · rw [isBlank, ← Bool.not_eq_true, inRanges_iff]
    simp only [blankRanges, List.mem_cons, List.not_mem_nil, or_false]
    rintro ⟨r, hr, hlow, hhigh⟩
    rcases hr with rfl | rfl | rfl | rfl | rfl | rfl | rfl | rfl | rfl | rfl <;> simp at hlow hhigh <;> omega
  · rintro rfl
    cases h
  · rintro rfl
    cases h

/-- The tokens that the lexer gives have these contents, up to the end. -/
def Tokenizes (l : Lexer) (contents : List (TokenKind × String)) : Prop :=
  ∃ ts, l.tokenizeFrom = .ok ts ∧ ts.map Token.content = contents

variable {l : Lexer} {contents : List (TokenKind × String)}

theorem tokenizes_end (h : l.rest = []) : l.Tokenizes [(.endOfInput, "")] := by
  obtain ⟨t, behind, hnext, ht⟩ := next_of_nothing h
  refine ⟨[t], tokenize_last hnext ?_, congrArg (fun content => [content]) ht⟩
  have hkind : t.kind = .endOfInput := congrArg Prod.fst ht
  simp [Token.isEnd, hkind]

/-- A word at the head of the text is the first token, and the lexer goes on behind it. -/
theorem tokenizes_word {c : Char} {cs word : List Char} {kind : TokenKind} (hrest : l.rest = c :: cs)
    (hc : StartsPlain c) (hplain : Plain l.previous c cs kind word) (hkind : kind ≠ .endOfInput)
    (hword : word ++ rest = c :: cs)
    (hbehind : ∀ m : Lexer, m.rest = rest →
      m.previous.map Token.content = some (kind, String.ofList word) → m.Tokenizes contents) :
    l.Tokenizes ((kind, String.ofList word) :: contents) := by
  have hskip : l.skipBlanks.rest = c :: cs := by
    refine skipBlanks_eq (List.nil_append _ ▸ hrest) (List.forall_mem_nil _) ?_
    rintro d ⟨⟩
    exact hc.not_blank
  have hquote : openingQuote? l.skipBlanks.rest = none := by
    rw [hskip]
    unfold openingQuote?
    split
    · next heq =>
      cases heq
      exact absurd rfl hc.no_double_quote
    · next heq =>
      cases heq
      exact absurd rfl hc.no_single_quote
    · rfl
  have hread := hplain.read
  rw [← hskip] at hread
  have hnext := next_of_plain hquote hread
  have hdrop : (l.skipBlanks.drop word.length).rest = rest := by
    change l.skipBlanks.rest.drop word.length = rest
    rw [hskip, ← hword, List.drop_left]
  let token : Token := ⟨kind, String.ofList word, l.skipBlanks.position⟩
  obtain ⟨ts, hts, rfl⟩ := hbehind ⟨l.skipBlanks.drop word.length, some token⟩ hdrop rfl
  refine ⟨_, tokenize_more hnext ?_ hts, rfl⟩
  simpa [Token.isEnd] using hkind

theorem tokenizes_numeral {n : Int} (hrest : l.rest = numeral n ++ rest) (hprevious : NumberBehind l.previous)
    (hends : EndsNumber rest)
    (hbehind : ∀ m : Lexer, m.rest = rest →
      m.previous.map Token.content = some (.integer, toString n) → m.Tokenizes contents) :
    l.Tokenizes ((.integer, toString n) :: contents) := by
  obtain ⟨c, cs, hcs, hc, hplain⟩ := plain_numeral n hprevious hends
  have htext : String.ofList (numeral n) = toString n := String.ofList_toList
  have hstarts : StartsPlain c := by
    rcases hc with rfl | hc
    · exact ⟨by decide, by decide, by decide⟩
    · exact .digit hc
  rw [← htext] at hbehind ⊢
  exact tokenizes_word (hrest.trans hcs) hstarts hplain (by simp) hcs hbehind

theorem bracket_starts {c : Char} (hc : c ∈ ['(', ')', '[', ']']) :
    StartsPlain c ∧ c ≠ '-' ∧ c.isDigit = false ∧ isBracketChar c = true := by
  simp only [List.mem_cons, List.not_mem_nil, or_false] at hc
  rcases hc with rfl | rfl | rfl | rfl <;>
    exact ⟨⟨rfl, by decide, by decide⟩, by decide, rfl, rfl⟩

/-- A bracket is a token whatever stands before it and behind it. -/
theorem tokenizes_bracket {c : Char} (hrest : l.rest = c :: rest) (hc : c ∈ ['(', ')', '[', ']'])
    (hbehind : ∀ m : Lexer, m.rest = rest →
      m.previous.map Token.content = some (.bracket, String.ofList [c]) → m.Tokenizes contents) :
    l.Tokenizes ((.bracket, String.ofList [c]) :: contents) := by
  obtain ⟨hstarts, hminus, hdigit, hbracket⟩ := bracket_starts hc
  have hplain : Plain l.previous c rest .bracket [c] :=
    .bracket ((startsNumber_of_ne hminus rest).trans hdigit) hbracket
  exact tokenizes_word hrest hstarts hplain (by simp) rfl hbehind

theorem tokenizes_comma (hrest : l.rest = ',' :: rest)
    (hbehind : ∀ m : Lexer, m.rest = rest →
      m.previous.map Token.content = some (.operator, ",") → m.Tokenizes contents) :
    l.Tokenizes ((.operator, ",") :: contents) := by
  have hnone : doubleOperators.find? (·.isPrefixOf (',' :: rest)) = none := by
    simp [doubleOperators]
  have hplain : Plain l.previous ',' rest .operator [','] := by
    refine .single ?_ (by decide) (by decide) hnone (by decide)
    exact startsNumber_of_ne (by decide) rest
  exact tokenizes_word hrest ⟨by decide, by decide, by decide⟩ hplain (by simp) rfl hbehind

/-- A minus belongs to a number behind an opening bracket and behind a comma. -/
theorem numberBehind {content : TokenKind × String} (h : previous.map Token.content = some content)
    (hcontent : content ∈ [(.bracket, "("), (.bracket, "["), (.operator, ",")]) :
    NumberBehind previous := by
  obtain ⟨⟨kind, text, position⟩, rfl, rfl⟩ := Option.map_eq_some_iff.mp h
  intro d ds hd
  simp only [Token.content, List.mem_cons, Prod.mk.injEq, List.not_mem_nil, or_false] at hcontent
  rcases hcontent with ⟨rfl, rfl⟩ | ⟨rfl, rfl⟩ | ⟨rfl, rfl⟩ <;> simp [minusStartsNumber, hd]

theorem endsNumber {c : Char} (hc : c ∈ [',', ')', ']']) (rest : List Char) :
    EndsNumber (c :: rest) := by
  simp only [List.mem_cons, List.not_mem_nil, or_false] at hc
  rcases hc with rfl | rfl | rfl <;> exact ⟨by rintro d ⟨⟩; decide, by rintro d ⟨⟩; decide, rfl⟩

end Lexer

end EventRules
