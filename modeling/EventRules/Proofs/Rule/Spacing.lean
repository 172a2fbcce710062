import EventRules.Proofs.Rule.Lexemes
import Mathlib.Data.List.Basic
import Mathlib.Data.List.TakeWhile

/-!
# Tokens written again with spaces

The tokens of a text, written one after the other with a space between each two, are the tokens of what
is written. A space ends every token, and none of the choices of a lexer looks behind it: a point that
belongs to a number and the time unit of a duration stand in the token already, and a minus that is an
operator is not followed by a digit any more.
-/

namespace EventRules
set_option autoImplicit false

open Text

/-! ### Writing -/

/-- The content of a string literal that means these characters. -/
def escaped (cs : List Char) : List Char :=
  cs.flatMap fun c => if c = '\\' ∨ c = '\'' then ['\\', c] else [c]

/-- A token as it is written again: a string between quotes, any other one as its text. -/
def Token.rewritten (t : Token) : String :=
  if t.kind = .text then String.ofList ('\'' :: (escaped t.text.toList ++ ['\''])) else t.text

/-- The tokens but the end, written again with a space between each two. -/
def respaced (ts : List Token) : String :=
  String.intercalate " " ((ts.filter fun t => !t.isEnd).map Token.rewritten)

/-- A token without its place. -/
def Token.content (t : Token) : TokenKind × String := (t.kind, t.text)

theorem Token.isEnd_congr {t u : Token} (h : t.content = u.content) : t.isEnd = u.isEnd := by
  have hkind : t.kind = u.kind := congrArg Prod.fst h
  rw [isEnd, isEnd, hkind]

/-- The text is at its end, or goes on with a space. -/
def Spaced (rest : List Char) : Prop := ∀ c ∈ rest.head?, c = ' '

/-- What satisfies a test, in front of what does not begin with it. -/
theorem take_dropWhile {p : Char → Bool} {word after : List Char} (hword : ∀ c ∈ word, p c = true)
    (hafter : ∀ c ∈ after.head?, p c = false) :
    (word ++ after).takeWhile p = word ∧ (word ++ after).dropWhile p = after := by
  rw [List.takeWhile_append_of_pos hword, List.dropWhile_append_of_pos hword]
  cases after with
  | nil => simp
  | cons c cs => simp [hafter c rfl]

namespace Spaced

variable {rest : List Char}

theorem cases_nil_or_space (h : Spaced rest) : rest = [] ∨ ∃ more, rest = ' ' :: more := by
  cases rest with
  | nil => exact Or.inl rfl
  | cons c more =>
    obtain rfl : c = ' ' := h c rfl
    exact Or.inr ⟨more, rfl⟩

theorem not_head (h : Spaced rest) {p : Char → Bool} (hp : p ' ' = false) :
    ∀ c ∈ rest.head?, p c = false := by
  intro c hc
  rw [h c hc]
  exact hp

end Spaced

namespace Lexer

variable {rest : List Char}

/-- A text whose head is no blank stands behind its blanks. -/
theorem skipBlanks_eq {l : Lexer} {gap word : List Char} (h : l.rest = gap ++ word)
    (hgap : ∀ c ∈ gap, isBlank c = true) (hword : ∀ c ∈ word.head?, isBlank c = false) :
    l.skipBlanks.rest = word := by
  change l.rest.dropWhile isBlank = word
  rw [h]
  exact (take_dropWhile hgap hword).2

/-! ### Numbers -/

theorem unsigned_of_point {whole more : List Char} {d : Char} (hwhole : ∀ c ∈ whole, c.isDigit = true)
    (hd : d.isDigit = true) :
    readUnsigned (whole ++ '.' :: d :: more) =
      (.float, whole ++ '.' :: (d :: more).takeWhile Char.isDigit) := by
  have hpoint : ∀ c ∈ ('.' :: d :: more).head?, c.isDigit = false := by
    rintro c ⟨⟩
    decide
  obtain ⟨htake, hdrop⟩ := take_dropWhile hwhole hpoint
  unfold readUnsigned
  simp only [htake, hdrop, hd, if_true]

theorem unsigned_of_no_point {whole after : List Char} (hwhole : ∀ c ∈ whole, c.isDigit = true)
    (hafter : ∀ c ∈ after.head?, c.isDigit = false) (hpoint : ∀ c ∈ after.head?, c ≠ '.') :
    readUnsigned (whole ++ after) =
      match durationUnit? after with
      | some unit => (.duration, whole ++ unit)
      | none => (.integer, whole) := by
  obtain ⟨htake, hdrop⟩ := take_dropWhile hwhole hafter
  unfold readUnsigned
  simp only [htake, hdrop]
  split
  · exact absurd rfl (hpoint '.' rfl)
  · rfl

theorem durationUnit_spaced (h : Spaced rest) : durationUnit? rest = none := by
  rcases h.cases_nil_or_space with rfl | ⟨more, rfl⟩
  · decide
  · simp [durationUnit?, Token.durationUnits]

/-- No unit that is tried before another one is read in its place, if a space follows. -/
theorem durationUnit_again {unit : List Char} (hunit : unit ∈ Token.durationUnits.map fun u => u.1.toList)
    (h : Spaced rest) :
    durationUnit? (unit ++ rest) = some unit ∧
      ∀ c ∈ (unit ++ rest).head?, c.isDigit = false ∧ c ≠ '.' := by
  simp only [Token.durationUnits, List.map_cons, List.map_nil, List.mem_cons, List.not_mem_nil, or_false]
    at hunit
  rcases hunit with rfl | rfl | rfl | rfl | rfl
  all_goals
    refine ⟨?_, by rintro c ⟨⟩; decide⟩
    rcases h.cases_nil_or_space with rfl | ⟨more, rfl⟩
    · decide
    · rfl

theorem unsigned_again (cs : List Char) (h : Spaced rest) :
    readUnsigned ((readUnsigned cs).2 ++ rest) = readUnsigned cs := by
  have hwhole : ∀ c ∈ cs.takeWhile Char.isDigit, c.isDigit = true :=
    fun c => List.mem_takeWhile_imp
  have hinteger : readUnsigned (cs.takeWhile Char.isDigit ++ rest) =
      (.integer, cs.takeWhile Char.isDigit) := by
    rw [unsigned_of_no_point hwhole (h.not_head (by decide)), durationUnit_spaced h]
    intro c hc
    rw [h c hc]
    decide
  generalize hread : readUnsigned cs = read
  unfold readUnsigned at hread
  split at hread
  · next d more hdrop =>
    split at hread
    · next hd =>
      subst hread
      have hfraction : ∀ c ∈ (d :: more).takeWhile Char.isDigit, c.isDigit = true :=
        fun c => List.mem_takeWhile_imp
      have hagain := (take_dropWhile hfraction (h.not_head (by decide))).1
      rw [List.takeWhile_cons_of_pos hd] at hagain ⊢
      rw [List.append_assoc, List.cons_append, List.cons_append, unsigned_of_point hwhole hd]
      rw [← List.cons_append, hagain]
    · subst hread
      exact hinteger
  · split at hread
    · next unit hunit =>
      subst hread
      obtain ⟨hagain, hhead⟩ := durationUnit_again (List.mem_of_find?_eq_some hunit) h
      rw [List.append_assoc, unsigned_of_no_point hwhole (fun c hc => (hhead c hc).1)
        (fun c hc => (hhead c hc).2), hagain]
    · subst hread
      exact hinteger

/-- What stands at the head of a text has its head, if it is not empty. -/
theorem head_again {text cs : List Char} (rest : List Char) (htext : text <+: cs)
    (hpos : 0 < text.length) : (text ++ rest).head? = cs.head? := by
  obtain ⟨more, rfl⟩ := htext
  cases text with
  | nil => cases hpos
  | cons c text => rfl

theorem number_of_digit {c : Char} {cs : List Char} (hc : c.isDigit = true) :
    readNumber (c :: cs) = readUnsigned (c :: cs) := by
  unfold readNumber
  split
  · next h =>
    cases h
    cases hc
  · rfl

theorem number_again {c : Char} (cs : List Char) (hc : c = '-' ∨ c.isDigit = true) (h : Spaced rest) :
    readNumber ((readNumber (c :: cs)).2 ++ rest) = readNumber (c :: cs) := by
  rcases hc with rfl | hc
  · change ((readUnsigned ((readUnsigned cs).2 ++ rest)).1,
      '-' :: (readUnsigned ((readUnsigned cs).2 ++ rest)).2) = readNumber ('-' :: cs)
    rw [unsigned_again cs h]
    rfl
  · rw [number_of_digit hc]
    obtain ⟨more, hmore⟩ : ∃ more, (readUnsigned (c :: cs)).2 ++ rest = c :: more := by
      have hprefix := unsigned_text_prefix (c :: cs)
      apply List.head?_eq_some_iff.mp
      exact head_again rest hprefix (unsigned_text_pos hc)
    have hagain := unsigned_again (c :: cs) h
    rw [hmore] at hagain ⊢
    rw [number_of_digit hc, hagain]

/-! ### Tokens without quotes -/

/-- Whether a number begins with this character. -/
def startsNumber (previous : Option Token) (c : Char) (cs : List Char) : Bool :=
  (c == '-' && minusStartsNumber previous cs) || c.isDigit

/-- What is read at the head of a text that does not begin with a blank or with a quote. -/
inductive Plain (previous : Option Token) (c : Char) (cs : List Char) : TokenKind → List Char → Prop
  | number : startsNumber previous c cs = true →
      Plain previous c cs (readNumber (c :: cs)).1 (readNumber (c :: cs)).2
  | bracket : startsNumber previous c cs = false → isBracketChar c = true →
      Plain previous c cs .bracket [c]
  | word : startsNumber previous c cs = false → isBracketChar c = false → startsWord c = true →
      Plain previous c cs (wordKind (String.ofList ((c :: cs).takeWhile continuesWord)))
        ((c :: cs).takeWhile continuesWord)
  | double {op : List Char} : startsNumber previous c cs = false → isBracketChar c = false →
      startsWord c = false → doubleOperators.find? (·.isPrefixOf (c :: cs)) = some op →
      Plain previous c cs .operator op
  | single : startsNumber previous c cs = false → isBracketChar c = false → startsWord c = false →
      doubleOperators.find? (·.isPrefixOf (c :: cs)) = none → singleOperators.contains c = true →
      Plain previous c cs .operator [c]

section

variable {previous previous' : Option Token} {c : Char} {cs ds text : List Char} {kind : TokenKind}

theorem readPlain_cons :
    readPlain? previous (c :: cs) =
      if startsNumber previous c cs = true then some (readNumber (c :: cs))
      else if isBracketChar c = true then some (.bracket, [c])
      else if startsWord c = true then
        some (wordKind (String.ofList ((c :: cs).takeWhile continuesWord)),
          (c :: cs).takeWhile continuesWord)
      else
        match doubleOperators.find? (·.isPrefixOf (c :: cs)) with
        | some op => some (.operator, op)
        | none => if singleOperators.contains c = true then some (.operator, [c]) else none := rfl

theorem Plain.of_read (h : readPlain? previous (c :: cs) = some (kind, text)) :
    Plain previous c cs kind text := by
  rw [readPlain_cons] at h
  cases hnumber : startsNumber previous c cs with
  | true =>
    rw [if_pos hnumber] at h
    have hplain := Plain.number hnumber
    rw [Option.some.inj h] at hplain
    exact hplain
  | false =>
    rw [if_neg (Bool.eq_false_iff.mp hnumber)] at h
    cases hbracket : isBracketChar c with
    | true =>
      rw [if_pos hbracket] at h
      cases h
      exact .bracket hnumber hbracket
    | false =>
      rw [if_neg (Bool.eq_false_iff.mp hbracket)] at h
      cases hword : startsWord c with
      | true =>
        rw [if_pos hword] at h
        cases h
        exact .word hnumber hbracket hword
      | false =>
        rw [if_neg (Bool.eq_false_iff.mp hword)] at h
        split at h
        · next op hop =>
          cases h
          exact .double hnumber hbracket hword hop
        · next hnone =>
          split at h
          · next hsingle =>
            cases h
            exact .single hnumber hbracket hword hnone hsingle
          · cases h

theorem Plain.read (h : Plain previous c cs kind text) :
    readPlain? previous (c :: cs) = some (kind, text) := by
  rw [readPlain_cons]
  cases h with
  | number hnumber => exact if_pos hnumber
  | bracket hnumber hbracket =>
    rw [if_neg (Bool.eq_false_iff.mp hnumber)]
    exact if_pos hbracket
  | word hnumber hbracket hword =>
    rw [if_neg (Bool.eq_false_iff.mp hnumber), if_neg (Bool.eq_false_iff.mp hbracket)]
    exact if_pos hword
  | double hnumber hbracket hword hop =>
    rw [if_neg (Bool.eq_false_iff.mp hnumber), if_neg (Bool.eq_false_iff.mp hbracket),
      if_neg (Bool.eq_false_iff.mp hword), hop]
  | single hnumber hbracket hword hnone hsingle =>
    rw [if_neg (Bool.eq_false_iff.mp hnumber), if_neg (Bool.eq_false_iff.mp hbracket),
      if_neg (Bool.eq_false_iff.mp hword), hnone]
    exact if_pos hsingle

theorem startsNumber_congr (hprevious : previous.map Token.content = previous'.map Token.content)
    (hhead : cs.head? = ds.head?) : startsNumber previous c cs = startsNumber previous' c ds := by
  have hminus : minusStartsNumber previous cs = minusStartsNumber previous' ds := by
    unfold minusStartsNumber
    rw [hhead]
    congr 1
    cases previous with
    | none =>
      cases previous' with
      | none => rfl
      | some t => cases hprevious
    | some t =>
      cases previous' with
      | none => cases hprevious
      | some t' =>
        obtain ⟨hkind, htext⟩ : t.kind = t'.kind ∧ t.text = t'.text := by
          simpa [Token.content] using hprevious
        dsimp only
        rw [hkind, htext]
  rw [startsNumber, startsNumber, hminus]

/-- Only a minus asks what follows it. -/
theorem startsNumber_of_ne (hc : c ≠ '-') (cs : List Char) : startsNumber previous c cs = c.isDigit := by
  simp [startsNumber, hc]

/-- In front of a space no minus begins a number. -/
theorem startsNumber_spaced (h : Spaced rest) : startsNumber previous c rest = c.isDigit := by
  have hminus : minusStartsNumber previous rest = false := by
    rcases h.cases_nil_or_space with rfl | ⟨more, rfl⟩
    · rfl
    · rfl
  rw [startsNumber, hminus, Bool.and_false, Bool.false_or]

theorem not_digit_of_starts (h : startsNumber previous c cs = false) : c.isDigit = false :=
  (Bool.or_eq_false_iff.mp h).2

/-! ### The same token again -/

/-- Two characters decide which operator of two characters stands at the head of a text. -/
theorem double_operator_congr (c d : Char) (cs ds : List Char) :
    doubleOperators.find? (·.isPrefixOf (c :: d :: cs)) =
      doubleOperators.find? (·.isPrefixOf (c :: d :: ds)) := rfl

theorem no_double_operator (c : Char) (h : Spaced rest) :
    doubleOperators.find? (·.isPrefixOf (c :: rest)) = none := by
  rcases h.cases_nil_or_space with rfl | ⟨more, rfl⟩
  · simp [doubleOperators]
  · simp [doubleOperators]

theorem Plain.congr (h : Plain previous c cs kind text)
    (hprevious : previous.map Token.content = previous'.map Token.content) :
    Plain previous' c cs kind text := by
  have hnumber : startsNumber previous c cs = startsNumber previous' c cs :=
    startsNumber_congr hprevious rfl
  cases h with
  | number hstarts => exact .number (hnumber ▸ hstarts)
  | bracket hstarts hbracket => exact .bracket (hnumber ▸ hstarts) hbracket
  | word hstarts hbracket hword => exact .word (hnumber ▸ hstarts) hbracket hword
  | double hstarts hbracket hword hop => exact .double (hnumber ▸ hstarts) hbracket hword hop
  | single hstarts hbracket hword hnone hsingle =>
    exact .single (hnumber ▸ hstarts) hbracket hword hnone hsingle

/-- An operator of two characters is the head of the text it is found in. -/
theorem double_operator_split {op : List Char}
    (h : doubleOperators.find? (·.isPrefixOf (c :: cs)) = some op) :
    ∃ d ds, cs = d :: ds ∧ op = [c, d] := by
  have htwo : ∀ op ∈ doubleOperators, op.length = 2 := by decide
  have htest := List.find?_some h
  obtain ⟨a, b, rfl⟩ := List.length_eq_two.mp (htwo op (List.mem_of_find?_eq_some h))
  obtain ⟨ds, hds⟩ := List.isPrefixOf_iff_prefix.mp htest
  cases hds
  exact ⟨b, ds, rfl, rfl⟩

theorem digit_behind_minus (h : startsNumber previous '-' cs = true) :
    ∃ d ds, cs = d :: ds ∧ d.isDigit = true := by
  have hminus : minusStartsNumber previous cs = true := by
    rcases Bool.or_eq_true_iff.mp h with hminus | hdigit
    · exact (Bool.and_eq_true_iff.mp hminus).2
    · exact absurd hdigit (by decide)
  cases cs with
  | nil => cases hminus
  | cons d ds => exact ⟨d, ds, rfl, (Bool.and_eq_true_iff.mp hminus).1⟩

theorem number_plain_again (hstarts : startsNumber previous c cs = true) (h : Spaced rest) :
    ∃ more, (readNumber (c :: cs)).2 ++ rest = c :: more ∧
      Plain previous c more (readNumber (c :: cs)).1 (readNumber (c :: cs)).2 := by
  have hc : c = '-' ∨ c.isDigit = true := by
    rw [startsNumber, Bool.or_eq_true, Bool.and_eq_true, beq_iff_eq] at hstarts
    exact hstarts.imp_left And.left
  obtain ⟨more, hmore⟩ : ∃ more, (readNumber (c :: cs)).2 ++ rest = c :: more := by
    have hprefix := number_text_prefix (c :: cs)
    apply List.head?_eq_some_iff.mp
    exact head_again rest hprefix (number_text_pos hc)
  have hagain := number_again cs hc h
  rw [hmore] at hagain
  refine ⟨more, hmore, hagain ▸ .number ?_⟩
  by_cases hminus : c = '-'
  · subst hminus
    -- a digit stands behind the minus, and is the first one of the number
    obtain ⟨d, ds, rfl, hd⟩ := digit_behind_minus hstarts
    obtain rfl : (readUnsigned (d :: ds)).2 ++ rest = more := List.tail_eq_of_cons_eq hmore
    have hprefix := unsigned_text_prefix (d :: ds)
    rw [← hstarts]
    apply startsNumber_congr rfl
    exact head_again rest hprefix (unsigned_text_pos hd)
  · rw [startsNumber_of_ne hminus] at hstarts ⊢
    exact hstarts

theorem Plain.again (hread : Plain previous c cs kind text) (h : Spaced rest) :
    ∃ more, text ++ rest = c :: more ∧ Plain previous c more kind text := by
  -- only a minus looks at what follows it, so that in the other cases its first character decides
  cases hread with
  | number hstarts => exact number_plain_again hstarts h
  | bracket hstarts hbracket =>
    have hc : c ≠ '-' := by
      rintro rfl
      exact absurd hbracket (by decide)
    rw [startsNumber_of_ne hc] at hstarts
    exact ⟨rest, rfl, .bracket ((startsNumber_of_ne hc rest).trans hstarts) hbracket⟩
  | word hstarts hbracket hword =>
    have hc : c ≠ '-' := by
      rintro rfl
      exact absurd hword (by decide)
    rw [startsNumber_of_ne hc] at hstarts
    have hletters : ∀ d ∈ (c :: cs).takeWhile continuesWord, continuesWord d = true :=
      fun d => List.mem_takeWhile_imp
    have hagain := (take_dropWhile hletters (h.not_head (by decide))).1
    rw [List.takeWhile_cons_of_pos (continuesWord_of_startsWord hword)] at hagain ⊢
    refine ⟨cs.takeWhile continuesWord ++ rest, rfl, ?_⟩
    have hstarts' : startsNumber previous c (cs.takeWhile continuesWord ++ rest) = false :=
      (startsNumber_of_ne hc _).trans hstarts
    have hplain := Plain.word hstarts' hbracket hword
    rw [← List.cons_append, hagain] at hplain
    exact hplain
  | double hstarts hbracket hword hop =>
    obtain ⟨d, ds, rfl, rfl⟩ := double_operator_split hop
    refine ⟨d :: rest, rfl, .double ?_ hbracket hword ?_⟩
    · rw [← hstarts]
      exact startsNumber_congr rfl rfl
    · rw [← hop]
      exact double_operator_congr c d rest ds
  | single hstarts hbracket hword hnone hsingle =>
    refine ⟨rest, rfl, .single ?_ hbracket hword (no_double_operator c h) hsingle⟩
    rw [startsNumber_spaced h]
    exact not_digit_of_starts hstarts

end

/-! ### Strings -/

/-- Behind its opening quote an escaped text is read back, up to the closing quote. -/
theorem quoted_again (start p : Position) (seen cs rest : List Char) :
    ∃ q, readQuoted start '\'' seen (escaped cs ++ '\'' :: rest) p =
      (.ok (seen.reverse ++ cs), ⟨rest, q⟩) := by
  induction cs generalizing seen p with
  | nil =>
    rw [List.append_nil]
    exact ⟨p.next '\'', rfl⟩
  | cons c cs ih =>
    obtain ⟨q, hq⟩ := ih (p.after (escaped [c])) (c :: seen)
    refine ⟨q, ?_⟩
    rw [List.reverse_cons, List.append_assoc, List.singleton_append] at hq
    rw [← hq]
    by_cases hslash : c = '\\'
    · subst hslash
      rfl
    · by_cases hquote : c = '\''
      · subst hquote
        rfl
      · have hescaped : escaped [c] = [c] := by simp [escaped, hslash, hquote]
        have happend : escaped (c :: cs) = c :: escaped cs := by
          rw [escaped, List.flatMap_cons, if_neg (not_or.mpr ⟨hslash, hquote⟩)]
          rfl
        rw [hescaped, happend, List.cons_append, readQuoted.eq_def]
        simp [hslash, hquote]

theorem openingQuote_congr {c : Char} {cs : List Char} (h : openingQuote? (c :: cs) = none)
    (ds : List Char) : openingQuote? (c :: ds) = none := by
  unfold openingQuote? at h ⊢
  split at h
  · cases h
  · cases h
  · next hdouble hsingle =>
    split
    · next hds =>
      cases hds
      exact absurd rfl (hdouble cs)
    · next hds =>
      cases hds
      exact absurd rfl (hsingle cs)
    · rfl

/-! ### One call -/

/-- A call gives a string, or what is read behind the blanks. -/
theorem next_cases {l behind : Lexer} {t : Token} (h : l.next = (.ok t, behind)) :
    behind.previous = some t ∧ (t.kind = .text ∨ openingQuote? l.skipBlanks.rest = none ∧
      readPlain? l.previous l.skipBlanks.rest = some (t.kind, t.text.toList)) := by
  rw [next] at h
  cases hquote : openingQuote? l.skipBlanks.rest with
  | some opening =>
    simp only [hquote] at h
    split at h
    · cases h
      exact ⟨rfl, Or.inl rfl⟩
    · cases h
  | none =>
    simp only [hquote] at h
    cases hread : readPlain? l.previous l.skipBlanks.rest with
    | none =>
      rw [hread] at h
      cases h
    | some word =>
      rw [hread] at h
      cases h
      refine ⟨rfl, Or.inr ⟨rfl, ?_⟩⟩
      rw [String.toList_ofList]

theorem next_of_plain {l : Lexer} {kind : TokenKind} {text : List Char}
    (hquote : openingQuote? l.skipBlanks.rest = none)
    (hread : readPlain? l.previous l.skipBlanks.rest = some (kind, text)) :
    l.next = give kind text l.skipBlanks.position (l.skipBlanks.drop text.length) := by
  rw [next]
  simp only [hquote, hread]

theorem next_of_string {l : Lexer} {cs : List Char}
    (h : l.skipBlanks.rest = '\'' :: (escaped cs ++ '\'' :: rest)) :
    ∃ q, l.next = give .text cs l.skipBlanks.position ⟨rest, q⟩ := by
  obtain ⟨q, hq⟩ := quoted_again l.skipBlanks.position (l.skipBlanks.position.next '\'') [] cs rest
  refine ⟨q, ?_⟩
  rw [next]
  simp only [h, openingQuote?, hq, List.reverse_nil, List.nil_append]

/-- The head of a text that is behind its blanks is no blank. -/
theorem head_not_blank (cs : List Char) : ∀ c ∈ (cs.dropWhile isBlank).head?, isBlank c = false := by
  intro c hc
  have hnot := List.head?_dropWhile_not isBlank cs
  rw [hc] at hnot
  exact hnot

/-- A token written again is given again, if what came before it is the same. -/
theorem next_again {l m behind : Lexer} {t : Token} {gap : List Char} (hnext : l.next = (.ok t, behind))
    (hmore : t.isEnd = false)
    (hprevious : l.previous.map Token.content = m.previous.map Token.content)
    (hrest : m.rest = gap ++ (t.rewritten.toList ++ rest)) (hgap : ∀ c ∈ gap, isBlank c = true)
    (h : Spaced rest) :
    ∃ u after, m.next = (.ok u, after) ∧ u.content = t.content ∧ after.rest = rest ∧
      behind.previous = some t ∧ after.previous = some u := by
  obtain ⟨hbehind, htext | ⟨hquote, hread⟩⟩ := next_cases hnext
  · have hword : t.rewritten.toList ++ rest = '\'' :: (escaped t.text.toList ++ '\'' :: rest) := by
      simp [Token.rewritten, htext]
    rw [hword] at hrest
    have hskip := skipBlanks_eq hrest hgap (by rintro c ⟨⟩; decide)
    obtain ⟨q, hq⟩ := next_of_string hskip
    refine ⟨_, _, hq, ?_, rfl, hbehind, rfl⟩
    rw [Token.content, Token.content, htext, String.ofList_toList]
  · obtain ⟨-, hkind, hends⟩ := plain_text_prefix hread
    have hblank := head_not_blank l.rest
    change ∀ c ∈ l.skipBlanks.rest.head?, isBlank c = false at hblank
    cases hcs : l.skipBlanks.rest with
    | nil =>
      have hend : t.isEnd = true := by simp [Token.isEnd, hends.mpr hcs]
      exact absurd hend (Bool.eq_false_iff.mp hmore)
    | cons c cs =>
      rw [hcs] at hread hquote hblank
      obtain ⟨more, hmore', hplain⟩ := (Plain.of_read hread).again h
      have hword : t.rewritten.toList ++ rest = c :: more := by
        rw [Token.rewritten, if_neg hkind, hmore']
      rw [hword] at hrest
      have hskip := skipBlanks_eq hrest hgap hblank
      have hagain := (hplain.congr hprevious).read
      rw [← hskip] at hagain
      have hplainhead : openingQuote? m.skipBlanks.rest = none := by
        rw [hskip]
        exact openingQuote_congr hquote more
      refine ⟨_, _, next_of_plain hplainhead hagain, ?_, ?_, hbehind, rfl⟩
      · rw [Token.content, Token.content, String.ofList_toList]
      · change m.skipBlanks.rest.drop t.text.toList.length = rest
        rw [hskip, ← hmore', List.drop_left]

theorem next_of_nothing {l : Lexer} (h : l.rest = []) :
    ∃ u behind, l.next = (.ok u, behind) ∧ u.content = (.endOfInput, "") := by
  have hskip : l.skipBlanks.rest = [] := by
    change l.rest.dropWhile isBlank = []
    rw [h]
    rfl
  have hquote : openingQuote? l.skipBlanks.rest = none := by rw [hskip]; rfl
  have hread : readPlain? l.previous l.skipBlanks.rest = some (.endOfInput, []) := by rw [hskip]; rfl
  exact ⟨_, _, next_of_plain hquote hread, rfl⟩

/-! ### All calls -/

theorem tokenize_last {l behind : Lexer} {t : Token} (h : l.next = (.ok t, behind))
    (hend : t.isEnd = true) : l.tokenizeFrom = .ok [t] := by
  have hkind : t.kind = .endOfInput := by simpa [Token.isEnd] using hend
  rw [tokenizeFrom]
  split
  · next herror => cases h.symm.trans herror
  · next hok =>
    cases h.symm.trans hok
    exact dif_pos hkind

theorem tokenize_more {l behind : Lexer} {t : Token} {ts : List Token} (h : l.next = (.ok t, behind))
    (hmore : t.isEnd = false) (hts : behind.tokenizeFrom = .ok ts) :
    l.tokenizeFrom = .ok (t :: ts) := by
  have hkind : t.kind ≠ .endOfInput := by simpa [Token.isEnd] using hmore
  rw [tokenizeFrom]
  split
  · next herror => cases h.symm.trans herror
  · next hok =>
    cases h.symm.trans hok
    rw [dif_neg hkind, hts]
    rfl

end Lexer

/-! ### The written text -/

/-- The tokens but the end, written again with a space in front of each one. -/
def spacedOut (ts : List Token) : List Char :=
  (ts.filter fun t => !t.isEnd).flatMap fun t => ' ' :: t.rewritten.toList

theorem spacedOut_cons {t : Token} (ts : List Token) (h : t.isEnd = false) :
    spacedOut (t :: ts) = ' ' :: (t.rewritten.toList ++ spacedOut ts) := by
  simp [spacedOut, h]

theorem spacedOut_end {t : Token} (h : t.isEnd = true) : spacedOut [t] = [] := by
  simp [spacedOut, h]

theorem spacedOut_spaced (ts : List Token) : Spaced (spacedOut ts) := by
  intro c hc
  rw [spacedOut] at hc
  cases hwritten : ts.filter fun t => !t.isEnd with
  | nil =>
    rw [hwritten] at hc
    cases hc
  | cons t us =>
    rw [hwritten] at hc
    cases hc
    rfl

theorem intercalate_spaced (w : List Char) (ws : List (List Char)) :
    ' ' :: [' '].intercalate (w :: ws) = (w :: ws).flatMap fun w => ' ' :: w := by
  induction ws generalizing w with
  | nil => simp
  | cons v ws ih =>
    rw [List.intercalate_cons_cons, List.flatMap_cons, ← ih v]
    simp

/-- Written again, the first token lacks the space in front of it. -/
theorem respaced_or (ts : List Token) :
    (respaced ts).toList = spacedOut ts ∨ ' ' :: (respaced ts).toList = spacedOut ts := by
  rw [respaced, String.toList_intercalate, spacedOut, List.map_map]
  cases ts.filter fun t => !t.isEnd with
  | nil => exact Or.inl rfl
  | cons t us =>
    apply Or.inr
    change ' ' :: [' '].intercalate (_ :: us.map _) = _
    rw [intercalate_spaced, ← List.map_cons, List.flatMap_map]
    rfl

namespace Scans

open Lexer

variable {l : Lexer} {scans : List Scan}

/-- The lexer `m` reads the tokens that `l` gives, if they are left for it to read, and came to its
place behind the same token. -/
theorem tokenize_again (h : Scans l scans) {m : Lexer}
    (hprevious : l.previous.map Token.content = m.previous.map Token.content)
    (hrest : m.rest = spacedOut (scans.map Scan.token) ∨
      ' ' :: m.rest = spacedOut (scans.map Scan.token)) :
    ∃ again, m.tokenizeFrom = .ok again ∧
      again.map Token.content = (scans.map Scan.token).map Token.content := by
  induction h generalizing m with
  | @last l behind t hnext hend =>
    have hempty : m.rest = [] := by
      rw [List.map_singleton, spacedOut_end hend] at hrest
      rcases hrest with hrest | hrest
      · exact hrest
      · cases hrest
    have htext : t.content = (.endOfInput, "") := by
      have hgives := next_gives hnext
      have hkind : t.kind = .endOfInput := by simpa [Token.isEnd] using hend
      have hwritten := hgives.written
      rw [(rest_of_end hgives hend).1, Token.WrittenAs, if_neg (by rw [hkind]; decide)] at hwritten
      rw [Token.content, hkind, String.toList_eq_nil_iff.mp hwritten]
    obtain ⟨u, after, hagain, hu⟩ := next_of_nothing hempty
    have hcontent : u.content = t.content := hu.trans htext.symm
    have hend' : u.isEnd = true := (Token.isEnd_congr hcontent).trans hend
    refine ⟨[u], tokenize_last hagain hend', ?_⟩
    rw [List.map_singleton, List.map_singleton, List.map_singleton, hcontent]
  | @more l behind t scans hnext hmore _ ih =>
    rw [List.map_cons, spacedOut_cons _ hmore] at hrest
    obtain ⟨gap, hgap, hsplit⟩ : ∃ gap, (∀ c ∈ gap, isBlank c = true) ∧
        m.rest = gap ++ (t.rewritten.toList ++ spacedOut (scans.map Scan.token)) := by
      rcases hrest with hrest | hrest
      · refine ⟨[' '], ?_, hrest⟩
        intro c hc
        rw [List.mem_singleton.mp hc]
        decide
      · exact ⟨[], List.forall_mem_nil _, List.tail_eq_of_cons_eq hrest⟩
    obtain ⟨u, after, hagain, hu, hafter, hbehind, hafter'⟩ :=
      next_again hnext hmore hprevious hsplit hgap (spacedOut_spaced _)
    have hprevious' : behind.previous.map Token.content = after.previous.map Token.content := by
      rw [hbehind, hafter', Option.map_some, Option.map_some, hu]
    obtain ⟨again, htokens, hcontent⟩ := ih hprevious' (Or.inl hafter)
    have hmore' : u.isEnd = false := (Token.isEnd_congr hu).trans hmore
    refine ⟨u :: again, tokenize_more hagain hmore' htokens, ?_⟩
    rw [List.map_cons, List.map_cons, List.map_cons, hu, hcontent]

end Scans

/-- The tokens of a text, written again with a space between each two, are read back as they are, but
for their places. -/
theorem tokenize_respaced {source : String} {tokens : List Token} (h : tokenize source = .ok tokens) :
    ∃ again, tokenize (respaced tokens) = .ok again ∧
      again.map Token.content = tokens.map Token.content := by
  obtain ⟨scans, hscans, rfl⟩ := Scans.of_tokenize h
  exact hscans.tokenize_again rfl (respaced_or _)

theorem tokenize_respaced_signs_and_quotes :
    ∃ tokens again, tokenize "a-5.msx - -2ms\"'\\\\\n\\\"\"3.5" = .ok tokens ∧
      respaced tokens = "a - 5 . msx - -2ms '\\'\\\\\n\"' 3.5" ∧
      tokenize (respaced tokens) = .ok again ∧
      again.map Token.content = tokens.map Token.content := by
  have hwritten : (tokenize "a-5.msx - -2ms\"'\\\\\n\\\"\"3.5").toOption.map respaced =
      some "a - 5 . msx - -2ms '\\'\\\\\n\"' 3.5" := by decide +kernel
  cases htokens : tokenize "a-5.msx - -2ms\"'\\\\\n\\\"\"3.5" with
  | error e =>
    rw [htokens] at hwritten
    cases hwritten
  | ok tokens =>
    rw [htokens] at hwritten
    obtain ⟨again, hagain, hcontent⟩ := tokenize_respaced htokens
    exact ⟨tokens, again, rfl, Option.some.inj hwritten, hagain, hcontent⟩

end EventRules
