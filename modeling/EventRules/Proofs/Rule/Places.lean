import Mathlib.Data.List.TakeWhile
import EventRules.Proofs.Rule.Lexemes
import EventRules.Text.Lines

/-!
# Places in a text and its lines

A place of a text is what some first characters leave behind them. The tokens of a text and the errors
about its characters stand at places of it, and never within the ending of a line. There the
lines of the text agree with the column of the place: the line begins with what stands before it.
-/

namespace EventRules
set_option autoImplicit false

open Text Lexer

/-- A place of a text; it does not stand between a carriage return and its newline. -/
def Position.StandsIn (source : List Char) (p : Position) : Prop :=
  ∃ front rest, source = front ++ rest ∧ p = .behind front ∧
    ¬ (front.getLast? = some '\r' ∧ rest.head? = some '\n')

/-- What stands on the last line of a text. -/
def Text.lastLine (front : List Char) : List Char := (front.reverse.takeWhile (· != '\n')).reverse

namespace Text

theorem lastLine_suffix (front : List Char) : lastLine front <:+ front := by
  rw [lastLine, ← List.reverse_prefix, List.reverse_reverse]
  exact List.takeWhile_prefix _

theorem lastLine_length (front : List Char) :
    (lastLine front).length + 1 = (Position.behind front).column := by
  rw [lastLine, List.length_reverse, Position.behind, Nat.add_comm]

theorem lastLine_self {front : List Char} (h : '\n' ∉ front) : lastLine front = front := by
  have hall : ∀ c ∈ front.reverse, (c != '\n') = true := by
    intro c hc
    rw [bne_iff_ne]
    rintro rfl
    exact h (List.mem_reverse.mp hc)
  rw [lastLine, List.takeWhile_eq_self_iff.mpr hall, List.reverse_reverse]

theorem lastLine_newline (before front : List Char) :
    lastLine (before ++ '\n' :: front) = lastLine front := by
  have hreverse : (before ++ '\n' :: front).reverse = front.reverse ++ '\n' :: before.reverse := by simp
  rw [lastLine, lastLine, hreverse, List.takeWhile_append]
  split
  · next hlength =>
    have hstop : ('\n' :: before.reverse).takeWhile (· != '\n') = [] := by simp
    rw [hstop, List.append_nil]
    exact congrArg List.reverse (List.takeWhile_prefix _ |>.eq_of_length hlength).symm
  · rfl

/-! ### Lines -/

theorem linesFrom_newline (seen cs : List Char) :
    ∃ ended, linesFrom seen ('\n' :: cs) = ended :: linesFrom [] cs := by
  rw [linesFrom.eq_def]
  exact ⟨_, rfl⟩

theorem linesFrom_cons {c : Char} (hc : c ≠ '\n') (seen cs : List Char) :
    linesFrom seen (c :: cs) = linesFrom (c :: seen) cs := by
  rw [linesFrom]
  exact hc

/-- A line goes on at least to the character before the last one that has been seen. -/
theorem linesFrom_seen {c : Char} {seen rest line : List Char}
    (h : (linesFrom (c :: seen) rest)[0]? = some line) : seen.reverse <+: line := by
  induction rest generalizing c seen with
  | nil =>
    simp only [linesFrom, List.isEmpty_cons, Bool.false_eq_true, if_false, List.getElem?_cons_zero,
      Option.some.injEq] at h
    rw [← h, List.reverse_cons]
    exact List.prefix_append _ _
  | cons d rest ih =>
    rw [linesFrom.eq_def] at h
    split at h
    · next heq => cases heq
    · simp only [List.getElem?_cons_zero, Option.some.injEq] at h
      rw [← h]
      split
      · next heq =>
        cases heq
        exact List.prefix_rfl
      · rw [List.reverse_cons]
        exact List.prefix_append _ _
    · next heq =>
      cases heq
      have hseen := ih h
      rw [List.reverse_cons] at hseen
      exact (List.prefix_append _ _).trans hseen

/-- A line goes on to the last character that has been seen, unless this one belongs to its ending. -/
theorem linesFrom_head {seen rest line : List Char} (h : (linesFrom seen rest)[0]? = some line)
    (hending : ¬ (seen.head? = some '\r' ∧ rest.head? = some '\n')) : seen.reverse <+: line := by
  rw [linesFrom.eq_def] at h
  split at h
  · split at h
    · cases h
    · simp only [List.getElem?_cons_zero, Option.some.injEq] at h
      exact h ▸ List.prefix_rfl
  · simp only [List.getElem?_cons_zero, Option.some.injEq] at h
    rw [← h]
    split
    · exact absurd ⟨rfl, rfl⟩ hending
    · exact List.prefix_rfl
  · exact linesFrom_seen h

/-- The line that has as many newlines before it as a front of the text begins with what stands on the
last line of this front. -/
theorem linesFrom_at {seen front rest line : List Char} (hseen : '\n' ∉ seen)
    (hending : ¬ ((seen.reverse ++ front).getLast? = some '\r' ∧ rest.head? = some '\n'))
    (h : (linesFrom seen (front ++ rest))[front.count '\n']? = some line) :
    lastLine (seen.reverse ++ front) <+: line := by
  induction front generalizing seen with
  | nil =>
    rw [List.append_nil, lastLine_self (by simpa using hseen)]
    apply linesFrom_head h
    rw [List.append_nil, List.getLast?_reverse] at hending
    exact hending
  | cons c front ih =>
    by_cases hc : c = '\n'
    · subst hc
      rw [lastLine_newline]
      obtain ⟨ended, hended⟩ := linesFrom_newline seen (front ++ rest)
      rw [List.cons_append, hended, List.count_cons_self, List.getElem?_cons_succ] at h
      have hnone : '\n' ∉ ([] : List Char) := List.not_mem_nil
      apply ih hnone
      · rintro ⟨hlast, hhead⟩
        apply hending
        refine ⟨?_, hhead⟩
        rw [List.reverse_nil, List.nil_append] at hlast
        rw [List.getLast?_append, List.getLast?_cons, hlast]
        rfl
      · exact h
    · have hsplit : seen.reverse ++ c :: front = (c :: seen).reverse ++ front := by simp
      rw [hsplit] at hending ⊢
      have hmore : '\n' ∉ c :: seen := by
        rw [List.mem_cons]
        exact not_or.mpr ⟨fun heq => hc heq.symm, hseen⟩
      apply ih hmore hending
      rw [List.cons_append, linesFrom_cons hc, List.count_cons_of_ne hc] at h
      exact h

end Text

namespace Position.StandsIn

variable {source : List Char} {p : Position}

/-- A place says how many characters and newlines stand before it, and how many characters behind the
last newline. -/
theorem counts (h : p.StandsIn source) :
    p.offset ≤ source.length ∧ p = .behind (source.take p.offset) := by
  obtain ⟨front, rest, rfl, rfl, -⟩ := h
  have hoffset : (behind front).offset = front.length := rfl
  constructor
  · rw [hoffset, List.length_append]
    omega
  · rw [hoffset, List.take_left]

/-- The line of a place, if there is one, begins with the characters just before the place, as many as
its column says. -/
theorem line_begins {line : List Char} (h : p.StandsIn source)
    (hline : (lines source)[p.line - 1]? = some line) :
    line.take (p.column - 1) = (source.take p.offset).drop (p.offset - (p.column - 1)) ∧
      p.column - 1 ≤ line.length ∧ p.column - 1 ≤ p.offset := by
  obtain ⟨front, rest, rfl, rfl, hending⟩ := h
  have hcolumn : (behind front).column - 1 = (lastLine front).length := by
    rw [← lastLine_length, Nat.add_sub_cancel]
  have hindex : (behind front).line - 1 = front.count '\n' := by
    rw [behind, Nat.add_sub_cancel_left]
  have hoffset : (behind front).offset = front.length := rfl
  rw [hindex] at hline
  have hnone : '\n' ∉ ([] : List Char) := List.not_mem_nil
  have hbegins : lastLine front <+: line := linesFrom_at hnone hending hline
  have hbefore := lastLine_suffix front
  rw [hcolumn, hoffset, List.take_left]
  refine ⟨?_, hbegins.length_le, hbefore.length_le⟩
  rw [← List.suffix_iff_eq_drop.mp hbefore]
  exact (List.prefix_iff_eq_take.mp hbegins).symm

end Position.StandsIn

namespace Lexer

variable {source passed : List Char} {l : Lexer}

/-- A lexer within a text: what it has passed and what is left. -/
structure Within (source passed : List Char) (l : Lexer) : Prop where
  split : source = passed ++ l.rest
  place : l.position = .behind passed

/-- Behind the blanks a place of the text begins, since no newline stands there. -/
theorem Within.skipped (h : l.Within source passed) : l.skipBlanks.position.StandsIn source := by
  refine ⟨passed ++ l.blanks, l.skipBlanks.rest, ?_, ?_, ?_⟩
  · rw [List.append_assoc, blanks_append, h.split]
  · rw [← Position.after_behind, ← h.place]
    rfl
  · rintro ⟨-, hhead⟩
    have hblank : isBlank '\n' = true := by decide
    have hstop := List.head?_dropWhile_not isBlank l.rest
    rw [show l.rest.dropWhile isBlank = l.skipBlanks.rest from rfl, hhead] at hstop
    exact absurd hblank (Bool.eq_false_iff.mp hstop)

/-- What is wrong within a string literal is said about its opening quote or about a character behind
a backslash. -/
theorem quoted_error_stands {start p : Position} {quote : Char} {seen cs : List Char} {e : LexError}
    {behind : Cursor} (hstart : start.StandsIn source) (hsplit : source = passed ++ cs)
    (hplace : p = .behind passed) (h : readQuoted start quote seen cs p = (.error e, behind)) :
    e.position.StandsIn source := by
  fun_induction readQuoted start quote seen cs p generalizing passed with
  | case1 =>
    cases h
    exact hstart
  | case2 =>
    cases h
    exact hstart
  | case3 seen e' cs p c hc ih =>
    have hsplit : source = (passed ++ ['\\', e']) ++ cs := by
      rw [hsplit]
      simp
    apply ih hsplit
    · rw [hplace, ← Position.after_behind]
      rfl
    · exact h
  | case4 seen e' cs p hc =>
    cases h
    refine ⟨passed ++ ['\\'], e' :: cs, ?_, ?_, ?_⟩
    · rw [hsplit]
      simp
    · rw [LexError.position, hplace, Position.next_behind]
    · rw [List.getLast?_concat]
      rintro ⟨hlast, -⟩
      cases hlast
  | case5 => cases h
  | case6 seen c cs p _ _ hquote ih =>
    have hsplit : source = (passed ++ [c]) ++ cs := by
      rw [hsplit]
      simp
    apply ih hsplit
    · rw [hplace, Position.next_behind]
    · exact h

theorem Within.error_stands {e : LexError} {behind : Lexer} (hl : l.Within source passed)
    (h : l.next = (.error e, behind)) : e.position.StandsIn source := by
  have hskipped := hl.skipped
  rw [next] at h
  cases hquote : openingQuote? l.skipBlanks.rest with
  | some opening =>
    obtain ⟨quote, cs⟩ := opening
    obtain ⟨hrest, -⟩ := openingQuote_eq hquote
    simp only [hquote] at h
    cases hread : readQuoted l.skipBlanks.position quote [] cs (l.skipBlanks.position.next quote) with
    | mk r after =>
      rw [hread] at h
      cases r with
      | ok text => cases h
      | error e' =>
        cases h
        have hsplit : source = (passed ++ l.blanks ++ [quote]) ++ cs := by
          rw [List.append_assoc, List.singleton_append, ← hrest, List.append_assoc, blanks_append,
            hl.split]
        apply quoted_error_stands hskipped hsplit
        · rw [← Position.next_behind, ← Position.after_behind, ← hl.place]
        · exact hread
  | none =>
    simp only [hquote] at h
    cases hread : readPlain? l.previous l.skipBlanks.rest with
    | some word =>
      rw [hread] at h
      cases h
    | none =>
      rw [hread] at h
      cases h
      exact hskipped

theorem Within.token_stands {t : Token} {behind : Lexer} (hl : l.Within source passed)
    (h : l.next = (.ok t, behind)) : t.position.StandsIn source := by
  rw [(next_gives h).place]
  exact hl.skipped

theorem Within.next {t : Token} {behind : Lexer} (hl : l.Within source passed)
    (h : l.next = (.ok t, behind)) : behind.Within source (passed ++ (l.blanks ++ l.lexeme)) := by
  obtain ⟨hsplit, hplace⟩ := Scans.place_behind (next_gives h) hl.split hl.place
  exact ⟨hsplit, hplace⟩

/-- All tokens of a text stand in it, and so does what makes it no sequence of tokens. -/
theorem Within.tokenize_stands (hl : l.Within source passed) :
    (∀ ts, l.tokenizeFrom = .ok ts → ∀ t ∈ ts, t.position.StandsIn source) ∧
      ∀ e, l.tokenizeFrom = .error e → e.position.StandsIn source := by
  induction l using tokenizeFrom.induct generalizing passed with
  | case1 l e behind hnext =>
    have hrun : l.tokenizeFrom = .error e := by
      rw [tokenizeFrom]
      split
      · next herror => cases hnext.symm.trans herror; rfl
      · next hok => cases hnext.symm.trans hok
    rw [hrun]
    constructor
    · intro ts h
      cases h
    · intro e' h
      cases h
      exact hl.error_stands hnext
  | case2 l t behind hnext hend =>
    have hrun : l.tokenizeFrom = .ok [t] := by
      rw [tokenizeFrom]
      split
      · next herror => cases hnext.symm.trans herror
      · next hok =>
        cases hnext.symm.trans hok
        rw [dif_pos hend]
    rw [hrun]
    constructor
    · intro ts h u hu
      cases h
      rw [List.mem_singleton.mp hu]
      exact hl.token_stands hnext
    · intro e h
      cases h
  | case3 l t behind hnext hend _ ih =>
    have hrun : l.tokenizeFrom = behind.tokenizeFrom.map (t :: ·) := by
      rw [tokenizeFrom]
      split
      · next herror => cases hnext.symm.trans herror
      · next hok =>
        cases hnext.symm.trans hok
        rw [dif_neg hend]
    obtain ⟨htokens, herrors⟩ := ih (hl.next hnext)
    rw [hrun]
    cases htail : behind.tokenizeFrom with
    | error e =>
      constructor
      · intro ts h
        cases h
      · intro e' h
        cases h
        exact herrors e htail
    | ok us =>
      constructor
      · intro ts h u hu
        cases h
        rcases List.mem_cons.mp hu with rfl | hu
        · exact hl.token_stands hnext
        · exact htokens us htail u hu
      · intro e h
        cases h

end Lexer

theorem tokens_stand {source : String} {ts : List Token} (h : tokenize source = .ok ts) :
    ∀ t ∈ ts, t.position.StandsIn source.toList :=
  (Lexer.Within.tokenize_stands (l := .ofText source) ⟨(List.nil_append _).symm, rfl⟩).1 ts h

theorem lexError_stands {source : String} {e : LexError} (h : tokenize source = .error e) :
    e.position.StandsIn source.toList :=
  (Lexer.Within.tokenize_stands (l := .ofText source) ⟨(List.nil_append _).symm, rfl⟩).2 e h

end EventRules
