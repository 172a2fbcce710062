import EventRules.Rule.Lexer

/-!
# What tokenizing leaves of a text

Each call of a lexer passes some blanks and then the lexeme of one token. Put together they are the whole
text; a lexeme is the text of its token, or a string literal that spells it, and the token stands
where the lexeme begins.
-/

namespace EventRules
set_option autoImplicit false

open Text

/-! ### Places -/

/-- The place behind the characters of a text that come before it. -/
def Position.behind (cs : List Char) : Position :=
  ⟨cs.length, 1 + cs.count '\n', 1 + (cs.reverse.takeWhile (· != '\n')).length⟩

namespace Position

theorem next_behind (cs : List Char) (c : Char) : (behind cs).next c = behind (cs ++ [c]) := by
  rw [next, behind, behind]
  by_cases hc : c = '\n'
  · simp [hc, Nat.add_assoc]
  · simp [hc, Nat.add_comm]

theorem after_behind (cs ds : List Char) : (behind cs).after ds = behind (cs ++ ds) := by
  induction ds generalizing cs with
  | nil => rw [after_nil, List.append_nil]
  | cons d ds ih => rw [after_cons, next_behind, ih, List.append_assoc, List.singleton_append]

end Position

/-! ### Spellings of a token -/

/-- What the content of a string literal means; the quote does not stand in it without a backslash. -/
def unescaped? (quote : Char) : List Char → Option (List Char)
  | [] => some []
  | ['\\'] => none
  | '\\' :: e :: cs => (Lexer.unescape? e).bind fun c => (unescaped? quote cs).map (c :: ·)
  | c :: cs => if c = quote then none else (unescaped? quote cs).map (c :: ·)

/-- The lexeme of a token is its text; that of a string spells it between quotes. -/
def Token.WrittenAs (t : Token) (lexeme : List Char) : Prop :=
  if t.kind = .text then
    ∃ quote body, (quote = '"' ∨ quote = '\'') ∧ lexeme = quote :: body ++ [quote] ∧
      unescaped? quote body = some t.text.toList
  else t.text.toList = lexeme

namespace Lexer

theorem unsigned_text_prefix (cs : List Char) : (readUnsigned cs).2 <+: cs := by
  have hsplit : cs.takeWhile Char.isDigit ++ cs.dropWhile Char.isDigit = cs :=
    List.takeWhile_append_dropWhile
  have hwhole : cs.takeWhile Char.isDigit <+: cs := List.takeWhile_prefix _
  have hlonger : ∀ more, more <+: cs.dropWhile Char.isDigit →
      cs.takeWhile Char.isDigit ++ more <+: cs := fun more hmore => by
    have hboth := (List.prefix_append_right_inj (cs.takeWhile Char.isDigit)).mpr hmore
    rwa [hsplit] at hboth
  unfold readUnsigned
  split
  · next d rest hrest =>
    split
    · refine hlonger _ ?_
      rw [hrest]
      exact List.cons_prefix_cons.mpr ⟨rfl, List.takeWhile_prefix _⟩
    · exact hwhole
  · split
    · next unit hunit =>
      have htest := List.find?_some hunit
      rw [Bool.and_eq_true] at htest
      exact hlonger unit (List.isPrefixOf_iff_prefix.mp htest.1)
    · exact hwhole

theorem number_text_prefix (cs : List Char) : (readNumber cs).2 <+: cs := by
  unfold readNumber
  split
  · exact List.cons_prefix_cons.mpr ⟨rfl, unsigned_text_prefix _⟩
  · exact unsigned_text_prefix _

theorem unsigned_kind (cs : List Char) :
    (readUnsigned cs).1 ≠ .text ∧ (readUnsigned cs).1 ≠ .endOfInput := by
  unfold readUnsigned
  split
  · split
    · exact ⟨nofun, nofun⟩
    · exact ⟨nofun, nofun⟩
  · split
    · exact ⟨nofun, nofun⟩
    · exact ⟨nofun, nofun⟩

theorem number_kind (cs : List Char) :
    (readNumber cs).1 ≠ .text ∧ (readNumber cs).1 ≠ .endOfInput := by
  unfold readNumber
  split
  · exact unsigned_kind _
  · exact unsigned_kind _

theorem wordKind_ne (w : String) : wordKind w ≠ .text ∧ wordKind w ≠ .endOfInput := by
  rw [wordKind]
  split
  · decide
  · split
    · decide
    · decide

/-- What is read stands at the head of the text, and only at the end of the text nothing is read. -/
theorem plain_text_prefix {previous : Option Token} {cs text : List Char} {kind : TokenKind}
    (h : readPlain? previous cs = some (kind, text)) :
    text <+: cs ∧ kind ≠ .text ∧ (kind = .endOfInput ↔ cs = []) := by
  cases cs with
  | nil =>
    cases h
    exact ⟨List.nil_prefix, by decide, by decide⟩
  | cons c rest =>
    suffices hsome : text <+: c :: rest ∧ kind ≠ .text ∧ kind ≠ .endOfInput from
      ⟨hsome.1, hsome.2.1, ⟨fun hk => absurd hk hsome.2.2, fun hnil => nomatch hnil⟩⟩
    rw [readPlain?] at h
    split at h
    · have h := Option.some.inj h
      have hkind := number_kind (c :: rest)
      have hhead := number_text_prefix (c :: rest)
      rw [h] at hkind hhead
      exact ⟨hhead, hkind⟩
    · split at h
      · cases h
        exact ⟨List.cons_prefix_cons.mpr ⟨rfl, List.nil_prefix⟩, by decide⟩
      · split at h
        · cases h
          exact ⟨List.takeWhile_prefix _, wordKind_ne _⟩
        · split at h
          · next op hop =>
            cases h
            have htest := List.find?_some hop
            exact ⟨List.isPrefixOf_iff_prefix.mp htest, by decide⟩
          · split at h
            · cases h
              exact ⟨List.cons_prefix_cons.mpr ⟨rfl, List.nil_prefix⟩, by decide⟩
            · cases h

/-- Inside a string the closing quote is the first one without a backslash. -/
theorem quoted_written {start p : Position} {quote : Char} {seen cs text : List Char} {behind : Cursor}
    (h : readQuoted start quote seen cs p = (.ok text, behind)) :
    ∃ body content, cs = body ++ quote :: behind.rest ∧ unescaped? quote body = some content ∧
      text = seen.reverse ++ content ∧ behind.position = p.after (body ++ [quote]) := by
  fun_induction readQuoted start quote seen cs p with
  | case1 => cases h
  | case2 => cases h
  | case3 seen e cs p c hc ih =>
    obtain ⟨body, content, rfl, hbody, rfl, hplace⟩ := ih h
    refine ⟨'\\' :: e :: body, c :: content, rfl, ?_, ?_, hplace⟩
    · rw [unescaped?, hc, hbody]
      rfl
    · rw [List.reverse_cons, List.append_assoc, List.singleton_append]
  | case4 => cases h
  | case5 seen cs p hescape =>
    cases h
    exact ⟨[], [], rfl, rfl, (List.append_nil _).symm, rfl⟩
  | case6 seen c cs p hlast hescape hquote ih =>
    obtain ⟨body, content, rfl, hbody, rfl, hplace⟩ := ih h
    refine ⟨c :: body, c :: content, rfl, ?_, ?_, hplace⟩
    · have hplain : c ≠ '\\' := by
        rintro rfl
        cases body with
        | nil => exact hescape _ _ rfl rfl
        | cons e body => exact hescape _ _ rfl rfl
      rw [unescaped?]
      · rw [if_neg hquote, hbody]
        rfl
      · intro hc
        exact absurd hc hplain
      · intro e ds hc
        exact absurd hc hplain
    · rw [List.reverse_cons, List.append_assoc, List.singleton_append]

/-! ### One call -/

/-- The blanks that the next call passes before its token. -/
def blanks (l : Lexer) : List Char := l.rest.takeWhile isBlank

/-- The characters that the next call passes behind these blanks. -/
def lexeme (l : Lexer) : List Char :=
  l.skipBlanks.rest.take (l.skipBlanks.rest.length - l.next.2.rest.length)

/-- What a call does that gives a token. -/
structure Gives (l : Lexer) (t : Token) (behind : Lexer) : Prop where
  split : l.rest = l.blanks ++ (l.lexeme ++ behind.rest)
  written : t.WrittenAs l.lexeme
  place : t.position = l.position.after l.blanks
  place_behind : behind.position = l.position.after (l.blanks ++ l.lexeme)
  ends : t.isEnd = true → l.skipBlanks.rest = []
  pos : t.isEnd = false → 0 < l.lexeme.length

theorem lexeme_eq {l : Lexer} {word : List Char} (h : l.skipBlanks.rest = word ++ l.next.2.rest) :
    l.lexeme = word := by
  rw [lexeme, h, List.length_append, Nat.add_sub_cancel, List.take_left]

theorem blanks_append (l : Lexer) : l.blanks ++ l.skipBlanks.rest = l.rest :=
  List.takeWhile_append_dropWhile

/-- The call passes the blanks and then the word `w`. -/
theorem gives_of_split {l behind : Lexer} {t : Token} {w : List Char} (h : l.next = (.ok t, behind))
    (hword : l.skipBlanks.rest = w ++ behind.rest) (hwritten : t.WrittenAs w)
    (hplace : t.position = l.skipBlanks.position)
    (hbehind : behind.position = l.skipBlanks.position.after w)
    (hends : t.isEnd = true → l.skipBlanks.rest = []) (hpos : t.isEnd = false → 0 < w.length) :
    l.Gives t behind := by
  have hlexeme : l.lexeme = w := lexeme_eq (by rw [h, hword])
  refine ⟨?_, hlexeme ▸ hwritten, hplace, ?_, hends, hlexeme ▸ hpos⟩
  · rw [hlexeme, ← hword, blanks_append]
  · rw [hlexeme, hbehind, Position.after_append]
    rfl

theorem openingQuote_eq {cs rest : List Char} {quote : Char} (h : openingQuote? cs = some (quote, rest)) :
    cs = quote :: rest ∧ (quote = '"' ∨ quote = '\'') := by
  rw [openingQuote?.eq_def] at h
  split at h
  · cases h
    exact ⟨rfl, Or.inl rfl⟩
  · cases h
    exact ⟨rfl, Or.inr rfl⟩
  · cases h

theorem next_gives {l behind : Lexer} {t : Token} (h : l.next = (.ok t, behind)) : l.Gives t behind := by
  have hnext := h
  rw [next] at h
  cases hquote : openingQuote? l.skipBlanks.rest with
  | some opening =>
    obtain ⟨quote, cs⟩ := opening
    obtain ⟨hrest, hmark⟩ := openingQuote_eq hquote
    simp only [hquote] at h
    cases hread : readQuoted l.skipBlanks.position quote [] cs (l.skipBlanks.position.next quote) with
    | mk r after =>
      rw [hread] at h
      cases r with
      | error e => cases h
      | ok text =>
        cases h
        obtain ⟨body, content, hbody, hunescaped, htext, hplace⟩ := quoted_written hread
        refine gives_of_split (w := quote :: body ++ [quote]) hnext ?_ ?_ rfl ?_
          (fun hend => absurd hend Bool.false_ne_true) fun _ => by simp
        · rw [hrest, hbody]
          simp
        · rw [Token.WrittenAs, if_pos rfl]
          refine ⟨quote, body, hmark, rfl, ?_⟩
          rw [hunescaped, htext]
          simp
        · exact hplace
  | none =>
    simp only [hquote] at h
    cases hread : readPlain? l.previous l.skipBlanks.rest with
    | none =>
      rw [hread] at h
      cases h
    | some word =>
      obtain ⟨kind, text⟩ := word
      rw [hread] at h
      cases h
      obtain ⟨⟨rest, hrest⟩, hkind, hends⟩ := plain_text_prefix hread
      have hdrop : l.skipBlanks.rest.drop text.length = rest := by rw [← hrest, List.drop_left]
      have htake : l.skipBlanks.rest.take text.length = text := by rw [← hrest, List.take_left]
      refine gives_of_split (w := text) hnext ?_ ?_ rfl ?_ (fun hend => ?_) fun hmore => ?_
      · exact (hdrop.symm ▸ hrest).symm
      · rw [Token.WrittenAs, if_neg hkind]
        exact String.toList_ofList
      · change l.skipBlanks.position.after (l.skipBlanks.rest.take text.length) = _
        rw [htake]
      · exact hends.mp (by simpa [Token.isEnd] using hend)
      · exact (plain_text_pos hread (by simpa [Token.isEnd] using hmore)).1

end Lexer

/-! ### All calls -/

/-- A call of a lexer: what it passes, and the token that it gives. -/
structure Scan where
  blanks : List Char
  lexeme : List Char
  token : Token

namespace Scan

def chars (s : Scan) : List Char := s.blanks ++ s.lexeme

/-- The token stands at its place in the text, and its lexeme begins there. -/
def PlacedIn (source : List Char) (s : Scan) : Prop :=
  s.token.position = .behind (source.take s.token.position.offset) ∧
    s.lexeme <+: source.drop s.token.position.offset

end Scan

/-- The calls of a lexer up to the first end token. -/
inductive Scans : Lexer → List Scan → Prop
  | last {l behind : Lexer} {t : Token} : l.next = (.ok t, behind) → t.isEnd = true →
      Scans l [⟨l.blanks, l.lexeme, t⟩]
  | more {l behind : Lexer} {t : Token} {scans : List Scan} : l.next = (.ok t, behind) →
      t.isEnd = false → Scans behind scans → Scans l (⟨l.blanks, l.lexeme, t⟩ :: scans)

namespace Scans

variable {l : Lexer} {scans : List Scan} {source passed : List Char}

theorem of_tokenize {tokens : List Token} (h : l.tokenizeFrom = .ok tokens) :
    ∃ scans, Scans l scans ∧ scans.map Scan.token = tokens := by
  induction l using Lexer.tokenizeFrom.induct generalizing tokens with
  | case1 l e behind hnext =>
    rw [Lexer.tokenizeFrom] at h
    split at h
    · cases h
    · next hok => cases hnext.symm.trans hok
  | case2 l t behind hnext hend =>
    have hlast : t.isEnd = true := by simp [Token.isEnd, hend]
    rw [Lexer.tokenizeFrom] at h
    split at h
    · next herror => cases hnext.symm.trans herror
    · next t' behind' hok =>
      cases hnext.symm.trans hok
      rw [dif_pos hend] at h
      cases h
      exact ⟨_, .last hnext hlast, rfl⟩
  | case3 l t behind hnext hend _ ih =>
    have hmore : t.isEnd = false := by simp [Token.isEnd, hend]
    rw [Lexer.tokenizeFrom] at h
    split at h
    · next herror => cases hnext.symm.trans herror
    · next t' behind' hok =>
      cases hnext.symm.trans hok
      rw [dif_neg hend] at h
      cases htail : behind.tokenizeFrom with
      | error e =>
        rw [htail] at h
        cases h
      | ok ts =>
        rw [htail] at h
        cases h
        obtain ⟨scans, hscans, rfl⟩ := ih htail
        exact ⟨_, .more hnext hmore hscans, rfl⟩

/-- At the end token nothing is left. -/
theorem rest_of_end {behind : Lexer} {t : Token} (h : l.Gives t behind) (ht : t.isEnd = true) :
    l.lexeme = [] ∧ behind.rest = [] := by
  have hempty : l.lexeme ++ behind.rest = [] := by
    have hsplit := h.split
    rw [← Lexer.blanks_append, h.ends ht] at hsplit
    exact (List.append_cancel_left hsplit).symm
  exact List.append_eq_nil_iff.mp hempty

theorem covers (h : Scans l scans) : l.rest = scans.flatMap Scan.chars := by
  induction h with
  | last hnext hend =>
    have hgives := Lexer.next_gives hnext
    obtain ⟨hlexeme, hrest⟩ := rest_of_end hgives hend
    rw [hgives.split, hrest]
    simp [Scan.chars]
  | more hnext _ _ ih =>
    rw [(Lexer.next_gives hnext).split, ih]
    simp [Scan.chars]

theorem blank (h : Scans l scans) : ∀ s ∈ scans, ∀ c ∈ s.blanks, isBlank c = true := by
  have hblanks : ∀ l : Lexer, ∀ c ∈ l.blanks, isBlank c = true := fun l c hc =>
    List.all_eq_true.mp List.all_takeWhile c hc
  induction h with
  | last =>
    intro s hs
    obtain rfl := List.mem_singleton.mp hs
    exact hblanks _
  | more _ _ _ ih =>
    intro s hs
    rcases List.mem_cons.mp hs with rfl | hs
    · exact hblanks _
    · exact ih s hs

theorem written (h : Scans l scans) : ∀ s ∈ scans, s.token.WrittenAs s.lexeme := by
  induction h with
  | last hnext =>
    intro s hs
    obtain rfl := List.mem_singleton.mp hs
    exact (Lexer.next_gives hnext).written
  | more hnext _ _ ih =>
    intro s hs
    rcases List.mem_cons.mp hs with rfl | hs
    · exact (Lexer.next_gives hnext).written
    · exact ih s hs

/-- A lexer behind the characters `passed` of the text places its next token behind the blanks. -/
theorem placed_first {behind : Lexer} {t : Token} (h : l.Gives t behind)
    (hsource : source = passed ++ l.rest) (hplace : l.position = .behind passed) :
    t.position = .behind (passed ++ l.blanks) ∧ Scan.PlacedIn source ⟨l.blanks, l.lexeme, t⟩ := by
  have hposition : t.position = .behind (passed ++ l.blanks) := by
    rw [h.place, hplace, Position.after_behind]
  have hoffset : t.position.offset = (passed ++ l.blanks).length := congrArg Position.offset hposition
  have hsplit : source = passed ++ l.blanks ++ (l.lexeme ++ behind.rest) := by
    rw [hsource, List.append_assoc, ← h.split]
  refine ⟨hposition, ?_, ?_⟩
  · change t.position = .behind (source.take t.position.offset)
    rw [hoffset, hsplit, List.take_left, hposition]
  · change l.lexeme <+: source.drop t.position.offset
    rw [hoffset, hsplit, List.drop_left]
    exact List.prefix_append _ _

theorem place_behind {behind : Lexer} {t : Token} (h : l.Gives t behind)
    (hsource : source = passed ++ l.rest) (hplace : l.position = .behind passed) :
    source = passed ++ (l.blanks ++ l.lexeme) ++ behind.rest ∧
      behind.position = .behind (passed ++ (l.blanks ++ l.lexeme)) := by
  refine ⟨?_, ?_⟩
  · rw [hsource, List.append_assoc, List.append_assoc, ← h.split]
  · rw [h.place_behind, hplace, Position.after_behind]

theorem placed (h : Scans l scans) (hsource : source = passed ++ l.rest)
    (hplace : l.position = .behind passed) : ∀ s ∈ scans, s.PlacedIn source := by
  induction h generalizing passed with
  | last hnext =>
    intro s hs
    obtain rfl := List.mem_singleton.mp hs
    exact (placed_first (Lexer.next_gives hnext) hsource hplace).2
  | more hnext _ _ ih =>
    have hgives := Lexer.next_gives hnext
    obtain ⟨hsource', hplace'⟩ := place_behind hgives hsource hplace
    intro s hs
    rcases List.mem_cons.mp hs with rfl | hs
    · exact (placed_first hgives hsource hplace).2
    · exact ih hsource' hplace' s hs

theorem place_le {behind : Lexer} {t : Token} (h : l.Gives t behind) :
    t.position.offset = l.position.offset + l.blanks.length ∧
      behind.position.offset = t.position.offset + l.lexeme.length := by
  rw [h.place, h.place_behind, Position.offset_after, Position.offset_after, List.length_append]
  omega

/-- The last token, and no other, is the end token; it stands at the end of the text. -/
theorem ended (h : Scans l scans) :
    ∃ front e, scans = front ++ [e] ∧ e.token.isEnd = true ∧
      e.token.position.offset = l.position.offset + l.rest.length ∧
      ∀ s ∈ front, s.token.isEnd = false := by
  induction h with
  | last hnext hend =>
    have hgives := Lexer.next_gives hnext
    obtain ⟨hlexeme, hrest⟩ := rest_of_end hgives hend
    refine ⟨[], _, rfl, hend, ?_, nofun⟩
    rw [hgives.split, hlexeme, hrest, List.append_nil, List.append_nil]
    exact (place_le hgives).1
  | more hnext hmore _ ih =>
    obtain ⟨front, e, rfl, he, hoffset, hfront⟩ := ih
    have hgives := Lexer.next_gives hnext
    have hplaces := place_le hgives
    have hlength := congrArg List.length hgives.split
    rw [List.length_append, List.length_append] at hlength
    refine ⟨_ :: front, e, rfl, he, by omega, fun s hs => ?_⟩
    rcases List.mem_cons.mp hs with rfl | hs
    · exact hmore
    · exact hfront s hs

theorem ascending (h : Scans l scans) :
    (∀ s ∈ scans, l.position.offset ≤ s.token.position.offset) ∧
      (scans.map fun s => s.token.position.offset).Pairwise (· < ·) := by
  induction h with
  | last hnext =>
    have hplaces := place_le (Lexer.next_gives hnext)
    simp
    omega
  | more hnext hmore _ ih =>
    obtain ⟨hbehind, hascending⟩ := ih
    have hgives := Lexer.next_gives hnext
    have hplaces := place_le hgives
    have hpos := hgives.pos hmore
    refine ⟨fun s hs => ?_, ?_⟩
    · rcases List.mem_cons.mp hs with rfl | hs
      · dsimp only
        omega
      · have hlater := hbehind s hs
        omega
    · refine List.pairwise_cons.mpr ⟨fun offset hoffset => ?_, hascending⟩
      obtain ⟨s, hs, rfl⟩ := List.mem_map.mp hoffset
      have hlater := hbehind s hs
      dsimp only
      omega

end Scans

/-- How the tokens of a text make up the text: they lie in order in it, with nothing but blanks
between their lexemes, and the last one stands at its end. -/
structure Lossless (source : List Char) (scans : List Scan) : Prop where
  covers : source = scans.flatMap Scan.chars
  blank : ∀ s ∈ scans, ∀ c ∈ s.blanks, isBlank c = true
  written : ∀ s ∈ scans, s.token.WrittenAs s.lexeme
  placed : ∀ s ∈ scans, s.PlacedIn source
  ascending : (scans.map fun s => s.token.position.offset).Pairwise (· < ·)
  ended : ∃ front e, scans = front ++ [e] ∧ e.token.isEnd = true ∧
    e.token.position.offset = source.length ∧ ∀ s ∈ front, s.token.isEnd = false

/-- Tokenizing a text cuts it up and loses nothing. -/
theorem tokenize_lossless {source : String} {tokens : List Token} (h : tokenize source = .ok tokens) :
    ∃ scans, Scans (Lexer.ofText source) scans ∧ scans.map Scan.token = tokens ∧
      Lossless source.toList scans := by
  obtain ⟨scans, hscans, htokens⟩ := Scans.of_tokenize h
  obtain ⟨front, e, hsplit, hend, hoffset, hfront⟩ := hscans.ended
  rw [show (Lexer.ofText source).position.offset = 0 from rfl, Nat.zero_add] at hoffset
  exact ⟨scans, hscans, htokens, hscans.covers, hscans.blank, hscans.written,
    hscans.placed (List.nil_append _).symm rfl, hscans.ascending.2,
    front, e, hsplit, hend, hoffset, hfront⟩

theorem tokenize_lossless_string_across_lines :
    ∃ scans, Scans (Lexer.ofText "x >=-2 'a\\'\n'\n5s") scans ∧
      scans.map Scan.token = [⟨.name, "x", ⟨0, 1, 1⟩⟩, ⟨.operator, ">=", ⟨2, 1, 3⟩⟩,
        ⟨.integer, "-2", ⟨4, 1, 5⟩⟩, ⟨.text, "a'\n", ⟨7, 1, 8⟩⟩, ⟨.duration, "5s", ⟨14, 3, 1⟩⟩,
        ⟨.endOfInput, "", ⟨16, 3, 3⟩⟩] ∧
      Lossless "x >=-2 'a\\'\n'\n5s".toList scans := by
  have hexpected : (tokenize "x >=-2 'a\\'\n'\n5s").toOption = some
      [⟨.name, "x", ⟨0, 1, 1⟩⟩, ⟨.operator, ">=", ⟨2, 1, 3⟩⟩, ⟨.integer, "-2", ⟨4, 1, 5⟩⟩,
        ⟨.text, "a'\n", ⟨7, 1, 8⟩⟩, ⟨.duration, "5s", ⟨14, 3, 1⟩⟩,
        ⟨.endOfInput, "", ⟨16, 3, 3⟩⟩] := by decide +kernel
  cases htokens : tokenize "x >=-2 'a\\'\n'\n5s" with
  | error e =>
    rw [htokens] at hexpected
    cases hexpected
  | ok tokens =>
    rw [htokens] at hexpected
    obtain ⟨scans, hscans, hmap, hlossless⟩ := tokenize_lossless htokens
    exact ⟨scans, hscans, hmap.trans (Option.some.inj hexpected), hlossless⟩

end EventRules
