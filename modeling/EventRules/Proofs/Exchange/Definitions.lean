import EventRules.Exchange
import EventRules.Proofs.Rule.Numerals

/-!
# The names of definitions

A definition may bind every word of letters, numerals and underscores. The lexer reads less as a name: a
name begins with a letter or an underscore, and it is none of the reserved words. What the lexer
reads as a name can always be defined.
-/

namespace EventRules
set_option autoImplicit false

open Text

/-! ### Characters of words -/

/-- No code point lies in two tables whose ranges lie apart. -/
theorem not_inRanges_of_apart {table other : List CodeRange}
    (hapart : ∀ r ∈ table, ∀ s ∈ other, r.2 < s.1 ∨ s.2 < r.1) {c : Char}
    (h : inRanges table c = true) : inRanges other c = false := by
  rw [← Bool.not_eq_true, inRanges_iff]
  rintro ⟨s, hs, hlow, hhigh⟩
  obtain ⟨r, hr, hfirst, hlast⟩ := inRanges_iff.mp h
  rcases hapart r hr s hs with hbefore | hbehind
  · omega
  · omega

/-- The blanks among the first 128 characters. -/
theorem blank_of_ascii {c : Char} (hascii : c.toNat < 128) (h : isBlank c = true) :
    c ∈ ['\t', '\n', '\x0b', '\x0c', '\r', ' '] := by
  obtain ⟨r, hr, hlow, hhigh⟩ := inRanges_iff.mp h
  have hcode : c.toNat ∈ [9, 10, 11, 12, 13, 32] := by
    simp only [blankRanges, List.mem_cons, List.not_mem_nil, or_false] at hr ⊢
    rcases hr with rfl | rfl | rfl | rfl | rfl | rfl | rfl | rfl | rfl | rfl <;>
      simp only at hlow hhigh <;> omega
  rw [← Char.ofNat_toNat c]
  simp only [List.mem_cons, List.not_mem_nil, or_false] at hcode
  rcases hcode with hcode | hcode | hcode | hcode | hcode | hcode <;> rw [hcode] <;> decide

theorem not_word_of_blank {c : Char} (h : isBlank c = true) : continuesWord c = false := by
  by_cases hascii : c.toNat < 128
  · have hblank := blank_of_ascii hascii h
    simp only [List.mem_cons, List.not_mem_nil, or_false] at hblank
    rcases hblank with rfl | rfl | rfl | rfl | rfl | rfl <;> decide
  · have hletter : inRanges letterRanges c = false :=
      not_inRanges_of_apart (by decide +kernel) h
    have hnumeral : inRanges numeralRanges c = false :=
      not_inRanges_of_apart (by decide +kernel) h
    have hunderscore : c ≠ '_' := by
      rintro rfl
      exact hascii (by decide)
    simp [continuesWord, isLetter, isNumeral, hascii, hletter, hnumeral, hunderscore]

theorem not_word_start_of_digit {c : Char} (h : c.isDigit = true) : startsWord c = false := by
  have hrange : 48 ≤ c.toNat ∧ c.toNat ≤ 57 := by
    simpa [Char.isDigit, UInt32.le_iff_toNat_le] using h
  have hunderscore : c ≠ '_' := by
    rintro rfl
    cases h
  have hletter : c.isAlpha = false := by
    rw [← Bool.not_eq_true]
    intro halpha
    change (decide (65 ≤ c.val ∧ c.val ≤ 90) || decide (97 ≤ c.val) && decide (c.val ≤ 122)) = true at halpha
    simp only [Bool.or_eq_true, Bool.and_eq_true, decide_eq_true_eq, UInt32.le_iff_toNat_le] at halpha
    change (65 ≤ c.toNat ∧ c.toNat ≤ 90) ∨ (97 ≤ c.toNat ∧ c.toNat ≤ 122) at halpha
    omega
  rw [startsWord, isLetter_of_ascii (by omega), hletter, beq_false_of_ne hunderscore, Bool.or_false]

theorem not_word_start_of_bracket {c : Char} (h : Lexer.isBracketChar c = true) :
    startsWord c = false := by
  simp only [Lexer.isBracketChar, List.contains_iff_mem, List.mem_cons, List.not_mem_nil, or_false] at h
  rcases h with rfl | rfl | rfl | rfl | rfl | rfl <;> decide

/-- No other kind of token begins with the first character of a word. -/
theorem word_starts {c : Char} (h : startsWord c = true) :
    Lexer.StartsPlain c ∧ c ≠ '-' ∧ c.isDigit = false ∧ Lexer.isBracketChar c = false := by
  have hword := continuesWord_of_startsWord h
  refine ⟨⟨?_, ?_, ?_⟩, ?_, ?_, ?_⟩
  · rw [← Bool.not_eq_true]
    intro hblank
    rw [not_word_of_blank hblank] at hword
    cases hword
  · rintro rfl
    exact absurd h (by decide)
  · rintro rfl
    exact absurd h (by decide)
  · rintro rfl
    exact absurd h (by decide)
  · rw [← Bool.not_eq_true]
    intro hdigit
    rw [not_word_start_of_digit hdigit] at h
    cases h
  · rw [← Bool.not_eq_true]
    intro hbracket
    rw [not_word_start_of_bracket hbracket] at h
    cases h

/-! ### Names that can be referenced -/

/-- The lexer reads the text as one name, and nothing else. -/
def Referable (name : String) : Prop :=
  (Lexer.ofText name).Tokenizes [(.name, name), (.endOfInput, "")]

/-- The words that are read as something else than a name. -/
def reservedWords : List String := ["true", "false"] ++ Lexer.keywords

theorem wordKind_name_iff (w : String) : Lexer.wordKind w = .name ↔ w ∉ reservedWords := by
  have hreserved : w ∈ reservedWords ↔ (w = "true" ∨ w = "false") ∨ w ∈ Lexer.keywords := by
    simp [reservedWords, or_assoc]
  rw [hreserved, Lexer.wordKind]
  by_cases htruth : w = "true" ∨ w = "false"
  · simp [htruth]
  · by_cases hkeyword : w ∈ Lexer.keywords
    · simp [htruth, hkeyword]
    · simp [htruth, hkeyword]

theorem first_token {l : Lexer} {t : Token} {ts : List Token} (h : l.tokenizeFrom = .ok (t :: ts)) :
    ∃ behind, l.next = (.ok t, behind) := by
  obtain ⟨scans, hscans, htokens⟩ := Scans.of_tokenize h
  cases hscans with
  | last hnext _ =>
    obtain ⟨rfl, -⟩ := List.cons.inj htokens
    exact ⟨_, hnext⟩
  | more hnext _ _ =>
    obtain ⟨rfl, -⟩ := List.cons.inj htokens
    exact ⟨_, hnext⟩

theorem number_no_name (cs : List Char) : (Lexer.readNumber cs).1 ≠ .name := by
  have hunsigned : ∀ ds, (Lexer.readUnsigned ds).1 ≠ .name := by
    intro ds
    unfold Lexer.readUnsigned
    split
    · split
      · exact nofun
      · exact nofun
    · split
      · exact nofun
      · exact nofun
  unfold Lexer.readNumber
  split
  · exact hunsigned _
  · exact hunsigned _

/-- What is read as a name is a word up to its end. -/
theorem Lexer.Plain.name {previous : Option Token} {c : Char} {cs text : List Char}
    (h : Lexer.Plain previous c cs .name text) :
    startsWord c = true ∧ text = (c :: cs).takeWhile continuesWord ∧
      Lexer.wordKind (String.ofList text) = .name := by
  have hnumber := number_no_name (c :: cs)
  generalize hkind : TokenKind.name = kind at h hnumber ⊢
  cases h with
  | number _ => exact absurd rfl hnumber
  | bracket _ _ => cases hkind
  | word _ _ hstarts => exact ⟨hstarts, rfl, rfl⟩
  | double _ _ _ _ => cases hkind
  | single _ _ _ _ _ => cases hkind

/-- A name that can be referenced is a word, and not a reserved one. -/
theorem Referable.word {name : String} (h : Referable name) :
    (∃ c cs, name.toList = c :: cs ∧ startsWord c = true) ∧
      (∀ c ∈ name.toList, continuesWord c = true) ∧ Lexer.wordKind name = .name := by
  obtain ⟨ts, hts, hcontents⟩ := h
  obtain ⟨t, us, rfl, ht, -⟩ := List.map_eq_cons_iff.mp hcontents
  have hkind : t.kind = .name := congrArg Prod.fst ht
  have htext : t.text = name := congrArg Prod.snd ht
  obtain ⟨behind, hnext⟩ := first_token hts
  obtain ⟨-, hstring | ⟨-, hread⟩⟩ := Lexer.next_cases hnext
  · rw [hkind] at hstring
    cases hstring
  · rw [hkind, htext] at hread
    have hlength := Lexer.skipBlanks_length (Lexer.ofText name).toCursor
    cases hrest : (Lexer.ofText name).skipBlanks.rest with
    | nil =>
      rw [hrest] at hread
      cases hread
    | cons c cs =>
      rw [hrest] at hread hlength
      obtain ⟨hstarts, hword, hname⟩ := (Lexer.Plain.of_read hread).name
      -- the word takes as many characters as the whole text has
      have hall : (c :: cs).takeWhile continuesWord = c :: cs := by
        apply (List.takeWhile_prefix _).eq_of_length_le
        rw [← hword]
        exact hlength
      rw [String.ofList_toList] at hname
      rw [hword, hall]
      exact ⟨⟨c, cs, rfl, hstarts⟩, fun d hd => List.takeWhile_eq_self_iff.mp hall d hd, hname⟩

theorem referable_of_word {name : String} {c : Char} {cs : List Char} (hname : name.toList = c :: cs)
    (hstarts : startsWord c = true) (hword : ∀ d ∈ name.toList, continuesWord d = true)
    (hkind : Lexer.wordKind name = .name) : Referable name := by
  obtain ⟨hplain, hminus, hdigit, hbracket⟩ := word_starts hstarts
  have hall : (c :: cs).takeWhile continuesWord = c :: cs := by
    rw [← hname]
    exact List.takeWhile_eq_self_iff.mpr hword
  have hread : Lexer.Plain (Lexer.ofText name).previous c cs .name name.toList := by
    have hnumber : Lexer.startsNumber (Lexer.ofText name).previous c cs = false :=
      (Lexer.startsNumber_of_ne hminus cs).trans hdigit
    have hfound := Lexer.Plain.word hnumber hbracket hstarts
    rw [hall, ← hname, String.ofList_toList, hkind] at hfound
    exact hfound
  have htext : name.toList ++ [] = c :: cs := by rw [List.append_nil, hname]
  have htokens := Lexer.tokenizes_word hname hplain hread (by simp) htext
    fun m hm _ => Lexer.tokenizes_end hm
  rw [String.ofList_toList] at htokens
  exact htokens

/-! ### Names that can be defined -/

theorem trim_word {name : List Char} (h : ∀ c ∈ name, continuesWord c = true) : trim name = name := by
  have hblank : ∀ c ∈ name, isBlank c = false := by
    intro c hc
    rw [← Bool.not_eq_true]
    intro hblank
    have hword := h c hc
    rw [not_word_of_blank hblank] at hword
    cases hword
  apply trim_eq_self_of_ends
  · exact fun c hc => hblank c (List.mem_of_mem_head? hc)
  · exact fun c hc => hblank c (List.mem_of_mem_getLast? hc)

theorem isDefinable_iff (name : List Char) :
    isDefinable name = true ↔ name ≠ [] ∧ ∀ c ∈ name, continuesWord c = true := by
  simp [isDefinable]

/-- Only definable names are defined. -/
theorem definable_of_read {text name : String} {value : Value}
    (h : readDefinition text = .ok (name, value)) : isDefinable name.toList = true := by
  unfold readDefinition at h
  dsimp only at h
  split at h
  · cases h
  · cases hdefinable : isDefinable (trim (text.toList.takeWhile (· ≠ '='))) with
    | false =>
      rw [hdefinable] at h
      cases h
    | true =>
      rw [hdefinable] at h
      cases h
      rw [String.toList_ofList]
      exact hdefinable

/-- A definable name is defined whatever stands behind the equality sign. -/
theorem read_of_definable {name : String} (h : isDefinable name.toList = true) (raw : String) :
    ∃ value, readDefinition (name ++ "=" ++ raw) = .ok (name, value) := by
  have hword := ((isDefinable_iff _).mp h).2
  have htext : (name ++ "=" ++ raw).toList = name.toList ++ '=' :: raw.toList := by simp
  have hsign : ∀ c ∈ name.toList, decide (c ≠ '=') = true := by
    intro c hc
    rw [decide_eq_true_eq]
    rintro rfl
    exact absurd (hword _ hc) (by decide)
  have hbehind : ∀ c ∈ ('=' :: raw.toList).head?, decide (c ≠ '=') = false := by
    rintro c ⟨⟩
    decide
  obtain ⟨htake, hdrop⟩ := take_dropWhile hsign hbehind
  unfold readDefinition
  simp only [htext, htake, hdrop, trim_word hword, h, String.ofList_toList]
  exact ⟨_, rfl⟩

/-- A rule can reference those names of definitions that begin like a word and are no reserved words,
and no other name. -/
theorem referable_iff_defined (name : String) :
    Referable name ↔
      (∃ text value, readDefinition text = .ok (name, value)) ∧
        (∀ c ∈ name.toList.head?, startsWord c = true) ∧ name ∉ reservedWords := by
  constructor
  · intro h
    obtain ⟨⟨c, cs, hname, hstarts⟩, hword, hkind⟩ := h.word
    have hdefinable : isDefinable name.toList = true := by
      rw [isDefinable_iff]
      exact ⟨by rw [hname]; exact List.cons_ne_nil c cs, hword⟩
    obtain ⟨value, hread⟩ := read_of_definable hdefinable ""
    refine ⟨⟨_, value, hread⟩, ?_, (wordKind_name_iff name).mp hkind⟩
    rw [hname]
    rintro d ⟨⟩
    exact hstarts
  · rintro ⟨⟨text, value, hread⟩, hstarts, hreserved⟩
    obtain ⟨hne, hword⟩ := (isDefinable_iff _).mp (definable_of_read hread)
    obtain ⟨c, cs, hname⟩ := List.exists_cons_of_ne_nil hne
    have hfirst : startsWord c = true := hstarts c (by rw [hname]; rfl)
    exact referable_of_word hname hfirst hword ((wordKind_name_iff name).mpr hreserved)

-- a name that begins with a digit is defined, and falls apart in a rule
example : (readDefinition "2x=5").toOption.map Prod.fst = some "2x" ∧
    (tokenize "2x").toOption.map (·.map Token.content) =
      some [(.integer, "2"), (.name, "x"), (.endOfInput, "")] := by decide +kernel

-- a reserved word is defined too
example : (readDefinition "let=5").toOption.map Prod.fst = some "let" ∧
    (tokenize "let").toOption.map (·.map Token.content) =
      some [(.keyword, "let"), (.endOfInput, "")] := by decide +kernel

end EventRules
