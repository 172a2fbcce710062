import EventRules.Proofs.Json.Pieces
import Mathlib.Data.List.Forall2

/-!
# The values in a JSON text

A value stands between blanks, in a list, or behind the key of a member. Each reader of values takes the
pieces that spell one, and reads from such pieces what they spell, also where values may nest deeper.
-/

namespace EventRules.Json
set_option autoImplicit false

open Number

/-! ### Blanks around a value -/

theorem skipBlanks_append {blanks cs : List Char} (hblanks : ∀ c ∈ blanks, isBlank c = true)
    (hcs : ∀ c ∈ cs.head?, isBlank c = false) : skipBlanks (blanks ++ cs) = cs :=
  (take_dropWhile hblanks hcs).2

theorem skipBlanks_self {cs : List Char} (hcs : ∀ c ∈ cs.head?, isBlank c = false) : skipBlanks cs = cs := by
  have hskip := skipBlanks_append (List.forall_mem_nil _) hcs
  rwa [List.nil_append] at hskip

theorem skipBlanks_idem (cs : List Char) : skipBlanks (skipBlanks cs) = skipBlanks cs :=
  skipBlanks_self (split_while isBlank cs).2.2

theorem ends_of_not_number {c : Char} (hc : c = ',' ∨ c = ']' ∨ c = '\x7d' ∨ c = ':') (cs : List Char) :
    Ends (c :: cs) := by
  rintro _ ⟨⟩
  rcases hc with rfl | rfl | rfl | rfl <;> decide

theorem ends_blanks_append {blanks behind : List Char} (hblanks : ∀ c ∈ blanks, isBlank c = true)
    (hbehind : Ends behind) : Ends (blanks ++ behind) := by
  refine head_append ?_ hbehind
  exact ends_of_text_blank fun c hc => text_blank_of_blank (hblanks c (List.mem_of_mem_head? hc))

/-- The text is one value with blanks around it. -/
def Padded {α : Type} (r : Reader α) (text : List Char) (a : α) : Prop :=
  ∃ before piece behind, text = before ++ piece ++ behind ∧ (∀ c ∈ before, isBlank c = true) ∧
    (∀ c ∈ behind, isBlank c = true) ∧ Spelling r piece a

section Lists

variable {α : Type} {item : Reader α} {close : Char}

theorem Spelling.padded {piece : List Char} {a : α} (h : Spelling item piece a) : Padded item piece a :=
  ⟨[], piece, [], by simp, by simp, by simp, h⟩

/-- Behind the blanks before it, the value is read up to those behind it. -/
theorem Padded.reads {text : List Char} {a : α} (h : Padded item text a) {rest : List Char}
    (hrest : Ends rest) :
    ∃ behind, item (skipBlanks (text ++ rest)) = some (a, behind ++ rest) ∧
      (∀ c ∈ behind, isBlank c = true) := by
  obtain ⟨before, piece, behind, rfl, hbefore, hbehind, hpiece⟩ := h
  have hfirst : ∀ c ∈ (piece ++ (behind ++ rest)).head?, isBlank c = false := by
    obtain ⟨c, cs, rfl, hc⟩ := hpiece.begins
    rintro _ ⟨⟩
    exact not_blank_of_not_text_blank hc.not_blank
  refine ⟨behind, ?_, hbehind⟩
  rw [List.append_assoc, List.append_assoc, skipBlanks_append hbefore hfirst]
  exact hpiece.reads (ends_blanks_append hbehind hrest)

/-- What a reader takes between blanks is one value with blanks around it. -/
theorem padded_of_read (hitem : Local item) {cs rest : List Char} {a : α}
    (h : item (skipBlanks cs) = some (a, rest)) :
    ∃ text, cs = text ++ skipBlanks rest ∧ Padded item text a := by
  obtain ⟨hcs, hbefore, -⟩ := split_while isBlank cs
  obtain ⟨hrest, hbehind, -⟩ := split_while isBlank rest
  obtain ⟨piece, hpiece, hspelling⟩ := hitem h
  refine ⟨_, ?_, cs.takeWhile isBlank, piece, rest.takeWhile isBlank, rfl, hbefore, hbehind, hspelling⟩
  rw [List.append_assoc, List.append_assoc, skipBlanks, ← hrest, ← hpiece]
  exact hcs

/-- The first character of a padded value, behind the blanks. -/
theorem Padded.begins {text : List Char} {a : α} (h : Padded item text a) (rest : List Char) :
    ∃ c cs, skipBlanks (text ++ rest) = c :: cs ∧ Begins c := by
  obtain ⟨before, piece, behind, rfl, hbefore, -, hpiece⟩ := h
  obtain ⟨c, cs, rfl, hc⟩ := hpiece.begins
  refine ⟨c, cs ++ behind ++ rest, ?_, hc⟩
  rw [List.append_assoc, List.append_assoc, List.append_assoc]
  apply skipBlanks_append hbefore
  rintro _ ⟨⟩
  exact not_blank_of_not_text_blank hc.not_blank

theorem Padded.blanks_append {blanks text : List Char} {a : α} (hblanks : ∀ c ∈ blanks, isBlank c = true)
    (h : Padded item text a) : Padded item (blanks ++ text) a := by
  obtain ⟨before, piece, behind, rfl, hbefore, hbehind, hpiece⟩ := h
  exact ⟨blanks ++ before, piece, behind, by simp, List.forall_mem_append.mpr ⟨hblanks, hbefore⟩, hbehind,
    hpiece⟩

theorem Padded.append_blanks {blanks text : List Char} {a : α} (hblanks : ∀ c ∈ blanks, isBlank c = true)
    (h : Padded item text a) : Padded item (text ++ blanks) a := by
  obtain ⟨before, piece, behind, rfl, hbefore, hbehind, hpiece⟩ := h
  exact ⟨before, piece, behind ++ blanks, by simp, hbefore, List.forall_mem_append.mpr ⟨hbehind, hblanks⟩,
    hpiece⟩

/-! ### Lists -/

/-- Values separated by commas, up to the closing bracket. -/
inductive Items (item : Reader α) (close : Char) : List Char → List α → Prop
  | last {text : List Char} {a : α} (hitem : Padded item text a) : Items item close (text ++ [close]) [a]
  | more {text texts : List Char} {a : α} {as : List α} (hitem : Padded item text a)
      (hitems : Items item close texts as) : Items item close (text ++ ',' :: texts) (a :: as)

theorem readItems_last (hclose : close = ']' ∨ close = '\x7d') {n : Nat} {cs rest : List Char} {a : α}
    {behind : List Char} (hitem : item (skipBlanks cs) = some (a, behind ++ close :: rest))
    (hbehind : ∀ c ∈ behind, isBlank c = true) : readItems item close (n + 1) cs = some ([a], rest) := by
  have hskip : skipBlanks (behind ++ close :: rest) = close :: rest := by
    apply skipBlanks_append hbehind
    rintro _ ⟨⟩
    rcases hclose with rfl | rfl <;> decide
  simp [readItems, hitem, hskip]

theorem readItems_more (hclose : close = ']' ∨ close = '\x7d') {n : Nat} {cs rest : List Char} {a : α}
    {behind : List Char} (hitem : item (skipBlanks cs) = some (a, behind ++ ',' :: rest))
    (hbehind : ∀ c ∈ behind, isBlank c = true) :
    readItems item close (n + 1) cs =
      (readItems item close n rest).map fun (as, rest) => (a :: as, rest) := by
  have hskip : skipBlanks (behind ++ ',' :: rest) = ',' :: rest := by
    apply skipBlanks_append hbehind
    rintro _ ⟨⟩
    decide
  have hcomma : ',' ≠ close := by
    rcases hclose with rfl | rfl <;> decide
  cases hothers : readItems item close n rest <;> simp [readItems, hitem, hskip, hcomma, hothers]

theorem Items.reads (hclose : close = ']' ∨ close = '\x7d') {text : List Char} {as : List α}
    (h : Items item close text as) {n : Nat} (hn : as.length ≤ n) (rest : List Char) :
    readItems item close n (text ++ rest) = some (as, rest) := by
  induction h generalizing n with
  | @last text a hitem =>
    obtain ⟨n, rfl⟩ := Nat.exists_eq_succ_of_ne_zero (show n ≠ 0 by simpa [Nat.one_le_iff_ne_zero] using hn)
    have hends : Ends (close :: rest) := ends_of_not_number (by tauto) rest
    obtain ⟨behind, hread, hbehind⟩ := hitem.reads hends
    rw [List.append_assoc]
    exact readItems_last hclose hread hbehind
  | @more text texts a as hitem hitems ih =>
    simp only [List.length_cons] at hn
    obtain ⟨n, rfl⟩ := Nat.exists_eq_succ_of_ne_zero (show n ≠ 0 by omega)
    have hends : Ends (',' :: (texts ++ rest)) := ends_of_not_number (.inl rfl) _
    obtain ⟨behind, hread, hbehind⟩ := hitem.reads hends
    rw [List.append_assoc, List.cons_append, readItems_more hclose hread hbehind, ih (by omega)]
    rfl

theorem items_of_read (hlocal : Local item) {n : Nat}
    {cs rest : List Char} {as : List α} (h : readItems item close n cs = some (as, rest)) :
    ∃ text, cs = text ++ rest ∧ Items item close text as := by
  induction n generalizing cs as with
  | zero => cases h
  | succ n ih =>
    obtain ⟨⟨a, behind⟩, hitem, hrest⟩ := Option.bind_eq_some_iff.mp h
    obtain ⟨text, hcs, hpadded⟩ := padded_of_read hlocal hitem
    dsimp only at hrest
    split at hrest
    · rename_i c cs' hbehind
      rw [hbehind] at hcs
      by_cases hlast : c = close
      · rw [if_pos hlast] at hrest
        obtain ⟨rfl, rfl⟩ := Prod.mk.inj (Option.some.inj hrest)
        exact ⟨text ++ [close], by rw [hcs, hlast, List.append_assoc]; rfl, .last hpadded⟩
      · rw [if_neg hlast] at hrest
        by_cases hcomma : c = ','
        · simp only [hcomma, ne_eq, not_true_eq_false, if_false] at hrest
          obtain ⟨⟨others, rest'⟩, hothers, hrest⟩ := Option.bind_eq_some_iff.mp hrest
          obtain ⟨rfl, rfl⟩ := Prod.mk.inj (Option.some.inj hrest)
          obtain ⟨texts, rfl, hitems⟩ := ih hothers
          exact ⟨text ++ ',' :: texts, by rw [hcs, hcomma, List.append_assoc]; rfl, .more hpadded hitems⟩
        · simp only [ne_eq, hcomma, not_false_eq_true, if_true] at hrest
          cases hrest
    · cases hrest

/-- Texts of values, set off by blanks and commas, are a list of these values. -/
theorem items_of_spaced {opening gap closing : List Char} (hopening : ∀ c ∈ opening, isBlank c = true)
    (hgap : ∀ c ∈ gap, isBlank c = true) (hclosing : ∀ c ∈ closing, isBlank c = true)
    {texts : List (List Char)} {as : List α} (h : List.Forall₂ (Padded item) texts as) (hsome : texts ≠ []) :
    Items item close (opening ++ ((',' :: gap).intercalate texts ++ (closing ++ [close]))) as := by
  induction h generalizing opening with
  | nil => exact absurd rfl hsome
  | @cons text a texts as htext hothers ih =>
    cases texts with
    | nil =>
      cases hothers
      rw [List.intercalate_singleton, ← List.append_assoc, ← List.append_assoc]
      exact .last ((htext.blanks_append hopening).append_blanks hclosing)
    | cons next texts =>
      have hitems := ih hgap (List.cons_ne_nil next texts)
      rw [List.intercalate_cons_cons, List.append_assoc, List.append_assoc, ← List.append_assoc]
      exact .more (htext.blanks_append hopening) hitems

/-- What stands behind the opening bracket, up to the closing one. -/
inductive Listed (item : Reader α) (close : Char) : List Char → List α → Prop
  | empty {blanks : List Char} (hblanks : ∀ c ∈ blanks, isBlank c = true) :
      Listed item close (blanks ++ [close]) []
  | items {text : List Char} {as : List α} (hitems : Items item close text as) :
      Listed item close text as

theorem readItems_skip (n : Nat) (cs : List Char) :
    readItems item close n (skipBlanks cs) = readItems item close n cs := by
  cases n with
  | zero => rfl
  | succ n => simp only [readItems, skipBlanks_idem]

theorem Items.length_le {text : List Char} {as : List α} (h : Items item close text as) :
    as.length ≤ text.length := by
  induction h with
  | last _ => simp
  | more _ _ ih =>
    simp only [List.length_append, List.length_cons]
    omega

theorem Items.begins {text : List Char} {as : List α} (h : Items item close text as) (rest : List Char) :
    ∃ c cs, skipBlanks (text ++ rest) = c :: cs ∧ Begins c := by
  cases h with
  | last hitem =>
    rw [List.append_assoc]
    exact hitem.begins _
  | more hitem _ =>
    rw [List.append_assoc]
    exact hitem.begins _

theorem Listed.reads (hclose : close = ']' ∨ close = '\x7d') {text : List Char} {as : List α}
    (h : Listed item close text as) (rest : List Char) :
    readList item close (text ++ rest) = some (as, rest) := by
  unfold readList
  cases h with
  | @empty blanks hblanks =>
    have hskip : skipBlanks (blanks ++ [close] ++ rest) = close :: rest := by
      rw [List.append_assoc]
      apply skipBlanks_append hblanks
      rintro _ ⟨⟩
      rcases hclose with rfl | rfl <;> decide
    rw [hskip]
    exact if_pos rfl
  | items hitems =>
    obtain ⟨c, cs, hskip, hc⟩ := hitems.begins rest
    have hopen : c ≠ close := by
      rcases hclose with rfl | rfl
      · exact hc.not_close.1
      · exact hc.not_close.2
    have hlength : as.length ≤ (text ++ rest).length := by
      rw [List.length_append]
      exact Nat.le_add_right_of_le hitems.length_le
    rw [hskip]
    dsimp only
    rw [if_neg hopen, ← hskip, readItems_skip, hitems.reads hclose hlength]

theorem listed_of_read (hlocal : Local item) {cs rest : List Char} {as : List α}
    (h : readList item close cs = some (as, rest)) :
    ∃ text, cs = text ++ rest ∧ Listed item close text as := by
  obtain ⟨hcs, hblanks, -⟩ := split_while isBlank cs
  unfold readList at h
  split at h
  · cases h
  · rename_i c behind hskip
    by_cases hlast : c = close
    · rw [if_pos hlast] at h
      obtain ⟨rfl, rfl⟩ := Prod.mk.inj (Option.some.inj h)
      refine ⟨cs.takeWhile isBlank ++ [close], ?_, .empty hblanks⟩
      rw [skipBlanks, hlast] at hskip
      rw [List.append_assoc, List.singleton_append, ← hskip]
      exact hcs
    · rw [if_neg hlast, ← hskip, readItems_skip] at h
      obtain ⟨text, hcs, hitems⟩ := items_of_read hlocal h
      exact ⟨text, hcs, .items hitems⟩

theorem Listed.last {text : List Char} {as : List α} (h : Listed item close text as) :
    text.getLast? = some close := by
  cases h with
  | empty _ => rw [List.getLast?_concat]
  | items hitems =>
    induction hitems with
    | last _ => rw [List.getLast?_concat]
    | @more text texts a as _ hitems ih =>
      rw [List.getLast?_append_of_ne_nil _ (List.cons_ne_nil _ _), List.getLast?_cons, ih]
      rfl

end Lists

/-! ### Values -/

theorem Spelling.member {value : Reader Json} {key gap before piece : List Char} {k : String} {j : Json}
    (hkey : Spelling readText key k) (hgap : ∀ c ∈ gap, isBlank c = true)
    (hbefore : ∀ c ∈ before, isBlank c = true) (hvalue : Spelling value piece j) :
    Spelling (readMember value) (key ++ (gap ++ ':' :: (before ++ piece))) (k, j) := by
  obtain ⟨c, cs, rfl, hc⟩ := hkey.begins
  obtain ⟨d, ds, rfl, hd⟩ := hvalue.begins
  refine ⟨?_, ⟨c, _, rfl, hc⟩, ?_⟩
  · intro rest hrest
    have hcolon : skipBlanks (gap ++ ':' :: (before ++ (d :: ds ++ rest))) =
        ':' :: (before ++ (d :: ds ++ rest)) := by
      apply skipBlanks_append hgap
      rintro _ ⟨⟩
      decide
    have hskip : skipBlanks (before ++ (d :: ds ++ rest)) = d :: ds ++ rest := by
      apply skipBlanks_append hbefore
      rintro _ ⟨⟩
      exact not_blank_of_not_text_blank hd.not_blank
    have htext : c :: cs ++ (gap ++ ':' :: (before ++ d :: ds)) ++ rest =
        c :: cs ++ (gap ++ ':' :: (before ++ (d :: ds ++ rest))) := by simp
    have hends : Ends (gap ++ ':' :: (before ++ (d :: ds ++ rest))) :=
      ends_blanks_append hgap (ends_of_not_number (by tauto) _)
    rw [htext]
    simp only [readMember, hkey.reads hends, Option.bind_eq_bind, Option.bind_some, hcolon, hskip,
      hvalue.reads hrest]
    rfl
  · have htext : c :: cs ++ (gap ++ ':' :: (before ++ d :: ds)) =
        c :: cs ++ gap ++ ':' :: before ++ d :: ds := by simp
    rw [htext, List.getLast?_append_of_ne_nil _ (List.cons_ne_nil d ds)]
    exact hvalue.ends

/-- The pieces of a member that was read. -/
theorem member_pieces {value : Reader Json} (hlocal : Local value) {cs rest : List Char} {k : String}
    {j : Json} (h : readMember value cs = some ((k, j), rest)) :
    ∃ key gap before piece, cs = key ++ (gap ++ ':' :: (before ++ piece)) ++ rest ∧
      Spelling readText key k ∧ (∀ c ∈ gap, isBlank c = true) ∧ (∀ c ∈ before, isBlank c = true) ∧
      Spelling value piece j := by
  obtain ⟨⟨k', behind⟩, hreadKey, h⟩ := Option.bind_eq_some_iff.mp h
  dsimp only at h
  split at h
  · rename_i behindColon hcolon
    obtain ⟨⟨j', rest'⟩, hvalue, h⟩ := Option.bind_eq_some_iff.mp h
    obtain ⟨hmember, rfl⟩ := Prod.mk.inj (Option.some.inj h)
    obtain ⟨rfl, rfl⟩ := Prod.mk.inj hmember
    obtain ⟨key, rfl, hkey⟩ := readText_local hreadKey
    obtain ⟨piece, hpiece, hspelling⟩ := hlocal hvalue
    obtain ⟨hbehind, hgap, -⟩ := split_while isBlank behind
    obtain ⟨hbehindColon, hbefore, -⟩ := split_while isBlank behindColon
    refine ⟨key, _, _, piece, ?_, hkey, hgap, hbefore, hspelling⟩
    rw [← skipBlanks, hpiece] at hbehindColon
    rw [← skipBlanks, hcolon, hbehindColon] at hbehind
    rw [List.append_assoc, List.append_assoc, List.cons_append, List.append_assoc, ← hbehind]
  · cases h

theorem readMember_local {value : Reader Json} (hlocal : Local value) : Local (readMember value) := by
  intro cs ⟨k, j⟩ rest h
  obtain ⟨key, gap, before, piece, hcs, hkey, hgap, hbefore, hpiece⟩ := member_pieces hlocal h
  exact ⟨_, hcs, .member hkey hgap hbefore hpiece⟩

theorem readWord_append {word : String} {j : Json} {cs rest : List Char} {a : Json}
    (h : readWord word j cs = some (a, rest)) : a = j ∧ cs = word.toList ++ rest := by
  unfold readWord at h
  split at h
  · rename_i hprefix
    obtain ⟨rfl, rfl⟩ := Prod.mk.inj (Option.some.inj h)
    obtain ⟨behind, rfl⟩ := List.isPrefixOf_iff_prefix.mp hprefix
    refine ⟨rfl, ?_⟩
    rw [← String.length_toList, List.drop_left]
  · cases h

theorem readWord_reads (word : String) (j : Json) (rest : List Char) :
    readWord word j (word.toList ++ rest) = some (j, rest) := by
  have hprefix : word.toList.isPrefixOf (word.toList ++ rest) = true :=
    List.isPrefixOf_iff_prefix.mpr (List.prefix_append _ _)
  rw [readWord, if_pos hprefix, ← String.length_toList, List.drop_left]

/-- The words that are values. -/
def words : List (String × Json) :=
  [("null", .null), ("true", .boolean true), ("false", .boolean false)]

/-- The ways to read a value. -/
inductive ReadsAs (rest : List Char) : (depth : Nat) → List Char → Json → Prop
  | text {depth : Nat} {cs : List Char} {s : String} (h : readText cs = some (s, rest)) :
      ReadsAs rest depth cs (.text s)
  | word {depth : Nat} {word : String} {j : Json} (h : (word, j) ∈ words) :
      ReadsAs rest depth (word.toList ++ rest) j
  | array {depth : Nat} {cs : List Char} {js : List Json}
      (h : readList (readValue depth) ']' cs = some (js, rest)) :
      ReadsAs rest (depth + 1) ('[' :: cs) (.array js)
  | object {depth : Nat} {cs : List Char} {ms : List (String × Json)}
      (h : readList (readMember (readValue depth)) '\x7d' cs = some (ms, rest)) :
      ReadsAs rest (depth + 1) ('\x7b' :: cs) (ofMembers ms)
  | number {depth : Nat} {cs : List Char} {j : Json} (h : readNumber cs = some (j, rest)) :
      ReadsAs rest depth cs j

theorem readsAs_of_read {depth : Nat} {cs rest : List Char} {j : Json}
    (h : readValue depth cs = some (j, rest)) : ReadsAs rest depth cs j := by
  unfold readValue at h
  split at h
  · obtain ⟨⟨s, rest'⟩, hread, hpair⟩ := Option.map_eq_some_iff.mp h
    obtain ⟨rfl, rfl⟩ := Prod.mk.inj hpair
    exact .text hread
  · obtain ⟨rfl, hcs⟩ := readWord_append h
    rw [hcs]
    exact .word (by simp [words])
  · obtain ⟨rfl, hcs⟩ := readWord_append h
    rw [hcs]
    exact .word (by simp [words])
  · obtain ⟨rfl, hcs⟩ := readWord_append h
    rw [hcs]
    exact .word (by simp [words])
  · cases depth with
    | zero => cases h
    | succ depth =>
      obtain ⟨⟨js, rest'⟩, hread, hpair⟩ := Option.map_eq_some_iff.mp h
      obtain ⟨rfl, rfl⟩ := Prod.mk.inj hpair
      exact .array hread
  · cases depth with
    | zero => cases h
    | succ depth =>
      obtain ⟨⟨ms, rest'⟩, hread, hpair⟩ := Option.map_eq_some_iff.mp h
      obtain ⟨rfl, rfl⟩ := Prod.mk.inj hpair
      exact .object hread
  · exact .number h

theorem number_begins {c : Char} {cs rest : List Char} {j : Json}
    (h : readNumber (c :: cs) = some (j, rest)) : c = '-' ∨ c.isDigit = true := by
  by_contra hc
  rw [not_or, Bool.not_eq_true] at hc
  have hminus : ∀ d ∈ (c :: cs).head?, d ≠ '-' := by
    rintro _ ⟨⟩
    exact hc.1
  have hdigit : ∀ d ∈ (c :: cs).head?, d.isDigit = false := by
    rintro _ ⟨⟩
    exact hc.2
  rw [readNumber_plain hminus, readSigned, readUnsigned_none hdigit] at h
  cases h

theorem Spelling.number {piece : List Char} {j : Json} (h : Spelling readNumber piece j) (depth : Nat) :
    Spelling (readValue depth) piece j := by
  refine ⟨?_, h.begins, h.ends⟩
  intro rest hrest
  have hread := h.reads hrest
  obtain ⟨c, cs, rfl, -⟩ := h.begins
  rw [List.cons_append] at hread ⊢
  have hbegins := number_begins hread
  unfold readValue
  split
  -- no other way to read a value begins with a sign or a digit
  all_goals
    first
      | exact hread
      | rename_i heq
        obtain ⟨rfl, -⟩ := List.cons.inj heq
        exact absurd hbegins (by decide)

theorem Spelling.ofText {piece : List Char} {s : String} (h : Spelling readText piece s) (depth : Nat) :
    Spelling (readValue depth) piece (.text s) := by
  refine ⟨?_, h.begins, h.ends⟩
  intro rest hrest
  have hread := h.reads hrest
  obtain ⟨c, cs, rfl, -⟩ := h.begins
  have hquote : c = '"' := by
    by_contra hc
    unfold readText at hread
    split at hread
    · rename_i heq
      exact hc (List.cons.inj heq).1
    · cases hread
  subst hquote
  rw [List.cons_append, readValue, ← List.cons_append, hread]
  rfl

theorem Spelling.word {word : String} {j : Json} (h : (word, j) ∈ words) (depth : Nat) :
    Spelling (readValue depth) word.toList j := by
  simp only [words, List.mem_cons, Prod.mk.injEq, List.not_mem_nil, or_false] at h
  rcases h with ⟨rfl, rfl⟩ | ⟨rfl, rfl⟩ | ⟨rfl, rfl⟩
  · refine ⟨fun {rest} _ => ?_, ⟨_, _, rfl, by decide, by decide⟩, ?_⟩
    · have htext : "null".toList ++ rest = 'n' :: ("ull".toList ++ rest) := rfl
      rw [htext, readValue, ← htext, readWord_reads]
    · rintro _ ⟨⟩
      rfl
  · refine ⟨fun {rest} _ => ?_, ⟨_, _, rfl, by decide, by decide⟩, ?_⟩
    · have htext : "true".toList ++ rest = 't' :: ("rue".toList ++ rest) := rfl
      rw [htext, readValue, ← htext, readWord_reads]
    · rintro _ ⟨⟩
      rfl
  · refine ⟨fun {rest} _ => ?_, ⟨_, _, rfl, by decide, by decide⟩, ?_⟩
    · have htext : "false".toList ++ rest = 'f' :: ("alse".toList ++ rest) := rfl
      rw [htext, readValue, ← htext, readWord_reads]
    · rintro _ ⟨⟩
      rfl

theorem Spelling.array {depth : Nat} {text : List Char} {js : List Json}
    (h : Listed (readValue depth) ']' text js) : Spelling (readValue (depth + 1)) ('[' :: text) (.array js) := by
  refine ⟨?_, ⟨'[', text, rfl, by decide, by decide⟩, ?_⟩
  · intro rest _
    rw [List.cons_append, readValue, h.reads (.inl rfl)]
    rfl
  · rw [List.getLast?_cons, h.last]
    rintro _ ⟨⟩
    decide

theorem Spelling.object {depth : Nat} {text : List Char} {ms : List (String × Json)}
    (h : Listed (readMember (readValue depth)) '\x7d' text ms) :
    Spelling (readValue (depth + 1)) ('\x7b' :: text) (ofMembers ms) := by
  refine ⟨?_, ⟨'\x7b', text, rfl, by decide, by decide⟩, ?_⟩
  · intro rest _
    rw [List.cons_append, readValue, h.reads (.inr rfl)]
    rfl
  · rw [List.getLast?_cons, h.last]
    rintro _ ⟨⟩
    decide

theorem readValue_local (depth : Nat) : Local (readValue depth) := by
  induction depth using Nat.strongRecOn with
  | _ depth ih =>
    intro cs j rest h
    cases readsAs_of_read h with
    | text hread =>
      obtain ⟨piece, hcs, hpiece⟩ := readText_local hread
      exact ⟨piece, hcs, hpiece.ofText depth⟩
    | word hword => exact ⟨_, rfl, .word hword depth⟩
    | @array depth _ _ hread =>
      obtain ⟨text, rfl, htext⟩ := listed_of_read (ih depth (Nat.lt_succ_self depth)) hread
      exact ⟨_, rfl, .array htext⟩
    | @object depth _ _ hread =>
      obtain ⟨text, rfl, htext⟩ := listed_of_read (readMember_local (ih depth (Nat.lt_succ_self depth))) hread
      exact ⟨_, rfl, .object htext⟩
    | number hread =>
      obtain ⟨piece, hcs, hpiece⟩ := readNumber_local hread
      exact ⟨piece, hcs, hpiece.number depth⟩

/-! ### Depth -/

section Depth

variable {α : Type} {item other : Reader α} {close : Char} (h : ∀ {piece : List Char} {a : α},
  Spelling item piece a → Spelling other piece a)
include h

theorem Padded.mono {text : List Char} {a : α} (hpadded : Padded item text a) : Padded other text a := by
  obtain ⟨before, piece, behind, htext, hbefore, hbehind, hpiece⟩ := hpadded
  exact ⟨before, piece, behind, htext, hbefore, hbehind, h hpiece⟩

theorem Items.mono {text : List Char} {as : List α} (hitems : Items item close text as) :
    Items other close text as := by
  induction hitems with
  | last hitem => exact .last (hitem.mono h)
  | more hitem _ ih => exact .more (hitem.mono h) ih

theorem Listed.mono {text : List Char} {as : List α} (hlisted : Listed item close text as) :
    Listed other close text as := by
  cases hlisted with
  | empty hblanks => exact .empty hblanks
  | items hitems => exact .items (hitems.mono h)

end Depth

theorem Spelling.member_mono {value deeper : Reader Json} (hlocal : Local value)
    (h : ∀ {piece : List Char} {j : Json}, Spelling value piece j → Spelling deeper piece j)
    {text : List Char} {m : String × Json} (hmember : Spelling (readMember value) text m) :
    Spelling (readMember deeper) text m := by
  obtain ⟨key, gap, before, piece, htext, hkey, hgap, hbefore, hpiece⟩ :=
    member_pieces hlocal hmember.alone
  rw [List.append_nil] at htext
  rw [htext]
  exact .member hkey hgap hbefore (h hpiece)

/-- What is read may also be read where values may nest one deeper. -/
theorem Spelling.deeper {depth : Nat} {text : List Char} {j : Json}
    (h : Spelling (readValue depth) text j) : Spelling (readValue (depth + 1)) text j := by
  induction depth using Nat.strongRecOn generalizing text j with
  | _ depth ih =>
    cases readsAs_of_read h.alone with
    | text hread =>
      obtain ⟨piece, rfl, hpiece⟩ := readText_local hread
      rw [List.append_nil]
      exact hpiece.ofText _
    | word hword =>
      rw [List.append_nil]
      exact .word hword _
    | @array depth _ _ hread =>
      obtain ⟨text, rfl, htext⟩ := listed_of_read (readValue_local depth) hread
      rw [List.append_nil]
      exact .array (htext.mono (ih depth (Nat.lt_succ_self depth)))
    | @object depth _ _ hread =>
      obtain ⟨text, rfl, htext⟩ := listed_of_read (readMember_local (readValue_local depth)) hread
      rw [List.append_nil]
      exact .object (htext.mono (Spelling.member_mono (readValue_local depth) (ih depth (Nat.lt_succ_self depth))))
    | number hread =>
      obtain ⟨piece, rfl, hpiece⟩ := readNumber_local hread
      rw [List.append_nil]
      exact hpiece.number _

theorem Spelling.mono {depth other : Nat} (hle : depth ≤ other) {text : List Char} {j : Json}
    (h : Spelling (readValue depth) text j) : Spelling (readValue other) text j := by
  induction hle with
  | refl => exact h
  | step _ ih => exact ih.deeper

/-! ### Whole texts -/

/-- A whole text is read as the one value in it. -/
theorem read_of_padded {s : List Char} {j : Json} (h : Padded (readValue maxDepth) s j) :
    read? s = some j := by
  obtain ⟨behind, hread, hbehind⟩ := h.reads ends_nil
  rw [List.append_nil, List.append_nil] at hread
  have hskip : skipBlanks behind = [] := List.dropWhile_eq_nil_iff.mpr hbehind
  simp [read?, hread, hskip]

theorem padded_of_read_whole {s : List Char} {j : Json} (h : read? s = some j) :
    Padded (readValue maxDepth) s j := by
  obtain ⟨⟨j', rest⟩, hread, h⟩ := Option.bind_eq_some_iff.mp h
  obtain ⟨text, hs, htext⟩ := padded_of_read (readValue_local maxDepth) hread
  dsimp only at h
  split at h
  · rename_i hempty
    obtain rfl := Option.some.inj h
    rw [List.isEmpty_iff.mp hempty, List.append_nil] at hs
    rwa [hs]
  · cases h

end EventRules.Json
