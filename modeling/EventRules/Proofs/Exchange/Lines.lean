import EventRules.Exchange
import EventRules.Proofs.Json.Values
import EventRules.Proofs.Rule.Places
import Mathlib.Data.List.Forall2

/-!
# Events one a line and events in an array

Events come as JSON values one a line or as one JSON array. Which of the two it is depends on whether the
whole text is one JSON value, and blank lines take no place in the numbering, so both give the same
events.
-/

namespace EventRules
set_option autoImplicit false

open Text

/-! ### Blanks around a text -/

theorem trim_blank_append {blanks : List Char} (hblanks : ∀ c ∈ blanks, isBlank c = true)
    (s : List Char) : trim (blanks ++ s) = trim s := by
  rw [trim, trim, List.dropWhile_append_of_pos hblanks]

theorem blanks_reverse {s : List Char} (h : ∀ c ∈ s, isBlank c = true) : ∀ c ∈ s.reverse, isBlank c = true :=
  fun c hc => h c (List.mem_reverse.mp hc)

theorem trim_append_blank {blanks : List Char} (hblanks : ∀ c ∈ blanks, isBlank c = true)
    (s : List Char) : trim (s ++ blanks) = trim s := by
  rw [trim, trim, List.dropWhile_append]
  split
  · rename_i hempty
    rw [List.isEmpty_iff.mp hempty, List.dropWhile_eq_nil_iff.mpr hblanks]
  · rw [List.reverse_append, List.dropWhile_append_of_pos (blanks_reverse hblanks)]

/-- No blank at either end, and not empty. -/
structure Trimmed (s : List Char) : Prop where
  not_empty : s ≠ []
  begins : ∀ c ∈ s.head?, isBlank c = false
  ends : ∀ c ∈ s.getLast?, isBlank c = false

theorem Trimmed.trim_eq {s : List Char} (h : Trimmed s) : trim s = s :=
  trim_eq_self_of_ends h.begins h.ends

theorem trimmed_of_spelling {α : Type} {r : Json.Reader α} {piece : List Char} {a : α}
    (h : Json.Spelling r piece a) : Trimmed piece := by
  obtain ⟨c, cs, rfl, hc⟩ := h.begins
  refine ⟨List.cons_ne_nil c cs, ?_, h.ends⟩
  rintro _ ⟨⟩
  exact hc.not_blank

/-! ### Lines that are kept -/

/-- The lines that are no blank ones, without the blanks at their ends, where a piece of the first line
is passed already. -/
def keptFrom (seen s : List Char) : List (List Char) :=
  ((linesFrom seen s).map trim).filter fun line => !line.isEmpty

/-- The line that a text is, unless it is blank. -/
def keptLine (s : List Char) : List (List Char) := [trim s].filter fun line => !line.isEmpty

theorem keptLine_trimmed {s : List Char} (h : Trimmed s) : keptLine s = [s] := by
  simp [keptLine, h.trim_eq, h.not_empty]

theorem keptLine_blank {s : List Char} (h : ∀ c ∈ s, isBlank c = true) : keptLine s = [] := by
  have hnil : trim s = [] := by
    have happend := trim_blank_append h []
    rwa [List.append_nil] at happend
  simp [keptLine, hnil]

theorem kept_end (seen : List Char) : keptFrom seen [] = keptLine seen.reverse := by
  cases seen with
  | nil => rfl
  | cons c cs => simp [keptFrom, keptLine, linesFrom]

theorem kept_cons (line : List Char) (lines : List (List Char)) :
    (((line :: lines).map trim).filter fun line => !line.isEmpty) =
      keptLine line ++ (lines.map trim).filter fun line => !line.isEmpty :=
  List.filter_append [trim line] (lines.map trim)

/-- A carriage return before the newline is a blank of its line. -/
theorem kept_newline (seen cs : List Char) :
    keptFrom seen ('\n' :: cs) = keptLine seen.reverse ++ keptFrom [] cs := by
  rw [keptFrom, linesFrom.eq_def]
  refine (kept_cons _ (linesFrom [] cs)).trans ?_
  rw [← keptFrom]
  congr 1
  split
  · have hreturn : ∀ c ∈ ['\r'], isBlank c = true := List.forall_mem_singleton.mpr rfl
    rw [List.reverse_cons, keptLine, keptLine, trim_append_blank hreturn]
  · rfl

theorem kept_append {s : List Char} (h : '\n' ∉ s) (seen cs : List Char) :
    keptFrom seen (s ++ cs) = keptFrom (s.reverse ++ seen) cs := by
  induction s generalizing seen with
  | nil => rfl
  | cons c s ih =>
    rw [List.mem_cons, not_or] at h
    obtain ⟨hc, hs⟩ := h
    rw [List.cons_append, keptFrom, linesFrom_cons (Ne.symm hc), ← keptFrom, ih hs, List.reverse_cons,
      List.append_assoc]
    rfl

theorem keptLine_blank_append {blanks : List Char} (hblanks : ∀ c ∈ blanks, isBlank c = true)
    (s : List Char) : keptLine (blanks ++ s) = keptLine s := by
  rw [keptLine, keptLine, trim_blank_append hblanks]

theorem keptLine_append_blank {blanks : List Char} (hblanks : ∀ c ∈ blanks, isBlank c = true)
    (s : List Char) : keptLine (s ++ blanks) = keptLine s := by
  rw [keptLine, keptLine, trim_append_blank hblanks]

/-- Blanks may end lines, and what is left of them is a blank piece of the line that goes on. -/
theorem kept_blanks {blanks : List Char} (hblanks : ∀ c ∈ blanks, isBlank c = true) {seen : List Char}
    (hseen : ∀ c ∈ seen, isBlank c = true) (cs : List Char) :
    ∃ left, (∀ c ∈ left, isBlank c = true) ∧ keptFrom seen (blanks ++ cs) = keptFrom left cs := by
  induction blanks generalizing seen with
  | nil => exact ⟨seen, hseen, rfl⟩
  | cons c blanks ih =>
    obtain ⟨hc, hrest⟩ := List.forall_mem_cons.mp hblanks
    by_cases hnewline : c = '\n'
    · subst hnewline
      obtain ⟨left, hleft, hkept⟩ := ih hrest (List.forall_mem_nil _)
      refine ⟨left, hleft, ?_⟩
      rw [List.cons_append, kept_newline, keptLine_blank (blanks_reverse hseen), List.nil_append, hkept]
    · obtain ⟨left, hleft, hkept⟩ := ih hrest (List.forall_mem_cons.mpr ⟨hc, hseen⟩)
      refine ⟨left, hleft, ?_⟩
      rw [List.cons_append, keptFrom, linesFrom_cons hnewline, ← keptFrom, hkept]

/-- Blanks with a newline among them end the line that was begun. -/
theorem kept_gap {gap : List Char} (hgap : ∀ c ∈ gap, isBlank c = true) (hnewline : '\n' ∈ gap)
    (seen cs : List Char) :
    ∃ left, (∀ c ∈ left, isBlank c = true) ∧
      keptFrom seen (gap ++ cs) = keptLine seen.reverse ++ keptFrom left cs := by
  obtain ⟨ending, blanks, rfl, hending⟩ := List.eq_append_cons_of_mem hnewline
  rw [List.forall_mem_append, List.forall_mem_cons] at hgap
  obtain ⟨hendingBlank, -, hblanks⟩ := hgap
  obtain ⟨left, hleft, hkept⟩ := kept_blanks hblanks (List.forall_mem_nil _) cs
  refine ⟨left, hleft, ?_⟩
  rw [List.append_assoc, List.cons_append, kept_append hending, kept_newline, hkept, List.reverse_append,
    List.reverse_reverse, keptLine_append_blank hendingBlank]

/-! ### Texts one a line -/

/-- The texts one behind the other, and between each two of them blanks with a newline among them. -/
inductive Joined : List (List Char) → List Char → Prop
  | single (text : List Char) : Joined [text] text
  | more {text gap document : List Char} {texts : List (List Char)}
      (hgap : ∀ c ∈ gap, isBlank c = true) (hnewline : '\n' ∈ gap) (hothers : Joined texts document) :
      Joined (text :: texts) (text ++ gap ++ document)

/-- The texts one a line, with blank lines and blanks anywhere around them. -/
def OnLines (texts : List (List Char)) (document : List Char) : Prop :=
  ∃ before core behind, document = before ++ core ++ behind ∧ (∀ c ∈ before, isBlank c = true) ∧
    (∀ c ∈ behind, isBlank c = true) ∧ Joined texts core

/-- Texts joined by newlines stand one a line. -/
theorem onLines_intercalate {texts : List (List Char)} (hsome : texts ≠ []) :
    OnLines texts (['\n'].intercalate texts) := by
  refine ⟨[], ['\n'].intercalate texts, [], by simp, nofun, nofun, ?_⟩
  have hnewline : ∀ c ∈ ['\n'], isBlank c = true := List.forall_mem_singleton.mpr rfl
  induction texts with
  | nil => exact absurd rfl hsome
  | cons text texts ih =>
    cases texts with
    | nil =>
      rw [List.intercalate_singleton]
      exact .single text
    | cons next texts =>
      rw [List.intercalate_cons_cons]
      exact .more hnewline List.mem_cons_self (ih (List.cons_ne_nil next texts))

/-- The lines that are kept are the texts. -/
theorem Joined.kept {texts : List (List Char)} {document : List Char} (h : Joined texts document)
    (hline : ∀ text ∈ texts, Trimmed text ∧ '\n' ∉ text) {seen : List Char}
    (hseen : ∀ c ∈ seen, isBlank c = true) : keptFrom seen document = texts := by
  induction h generalizing seen with
  | single text =>
    obtain ⟨htrimmed, hnewline⟩ := hline text List.mem_cons_self
    rw [← List.append_nil text, kept_append hnewline, kept_end, List.reverse_append, List.reverse_reverse,
      keptLine_blank_append (blanks_reverse hseen), keptLine_trimmed htrimmed, List.append_nil]
  | @more text gap document texts hgap hnewline _ ih =>
    obtain ⟨⟨htrimmed, hnone⟩, hothers⟩ := List.forall_mem_cons.mp hline
    obtain ⟨left, hleft, hkept⟩ := kept_gap hgap hnewline (text.reverse ++ seen) document
    rw [List.append_assoc, kept_append hnone, hkept, ih hothers hleft, List.reverse_append,
      List.reverse_reverse, keptLine_blank_append (blanks_reverse hseen), keptLine_trimmed htrimmed]
    rfl

/-- A text, and the same without some of the blanks around it. -/
def Stripped (text piece : List Char) : Prop :=
  ∃ before behind, text = before ++ piece ++ behind ∧ (∀ c ∈ before, isBlank c = true) ∧
    ∀ c ∈ behind, isBlank c = true

/-- The texts without the blanks around each of them stand one a line as well. -/
theorem Joined.stripped {texts pieces : List (List Char)} {document : List Char} (h : Joined texts document)
    (hpieces : List.Forall₂ Stripped texts pieces) :
    OnLines pieces document := by
  induction h generalizing pieces with
  | single text =>
    cases hpieces with
    | cons hpiece hnone =>
      cases hnone
      obtain ⟨before, behind, htext, hbefore, hbehind⟩ := hpiece
      exact ⟨before, _, behind, htext, hbefore, hbehind, .single _⟩
  | @more text gap document texts hgap hnewline _ ih =>
    cases hpieces with
    | @cons _ piece _ pieces hpiece hothers =>
      obtain ⟨before, behind, rfl, hbefore, hbehind⟩ := hpiece
      obtain ⟨left, core, right, rfl, hleft, hright, hjoined⟩ := ih hothers
      refine ⟨before, piece ++ (behind ++ gap ++ left) ++ core, right, by simp, hbefore, hright,
        .more ?_ ?_ hjoined⟩
      · rw [List.forall_mem_append, List.forall_mem_append]
        exact ⟨⟨hbehind, hgap⟩, hleft⟩
      · simp [hnewline]

theorem OnLines.stripped {texts pieces : List (List Char)} {document : List Char} (h : OnLines texts document)
    (hpieces : List.Forall₂ Stripped texts pieces) :
    OnLines pieces document := by
  obtain ⟨before, core, behind, rfl, hbefore, hbehind, hjoined⟩ := h
  obtain ⟨left, middle, right, rfl, hleft, hright, hpieces⟩ := hjoined.stripped hpieces
  refine ⟨before ++ left, middle, right ++ behind, by simp, ?_, ?_, hpieces⟩
  · rw [List.forall_mem_append]
    exact ⟨hbefore, hleft⟩
  · rw [List.forall_mem_append]
    exact ⟨hright, hbehind⟩

theorem Joined.trimmed {texts : List (List Char)} {document : List Char} (h : Joined texts document)
    (htexts : ∀ text ∈ texts, Trimmed text) : Trimmed document := by
  induction h with
  | single text => exact htexts text List.mem_cons_self
  | @more text gap document texts _ _ _ ih =>
    obtain ⟨htext, hothers⟩ := List.forall_mem_cons.mp htexts
    have hdocument := ih hothers
    refine ⟨by simp [htext.not_empty], ?_, ?_⟩
    · rw [List.append_assoc, List.head?_append_of_ne_nil _ htext.not_empty]
      exact htext.begins
    · rw [List.getLast?_append_of_ne_nil _ hdocument.not_empty]
      exact hdocument.ends

/-! ### One value or several -/

/-- The text is one JSON value with blanks around it, inside which arrays and objects nest at most `depth`
deep. -/
def Json.Spells (depth : Nat) (text : List Char) (j : Json) : Prop :=
  ∃ rest, Json.readValue depth (Json.skipBlanks text) = some (j, rest) ∧ Json.skipBlanks rest = []

theorem Json.Spells.padded {depth : Nat} {text : List Char} {j : Json} (h : Json.Spells depth text j) :
    Json.Padded (Json.readValue depth) text j := by
  obtain ⟨rest, hread, hrest⟩ := h
  obtain ⟨text', htext, hpadded⟩ := Json.padded_of_read (Json.readValue_local depth) hread
  rw [hrest, List.append_nil] at htext
  rwa [htext]

/-- Several values are no value. -/
theorem read_several {text gap document : List Char} {j : Json}
    (htext : Json.Spelling (Json.readValue Json.maxDepth) text j) (hgap : ∀ c ∈ gap, isBlank c = true)
    (hnewline : '\n' ∈ gap) (hdocument : Trimmed document) : Json.read? (text ++ gap ++ document) = none := by
  have hends : Json.Ends (gap ++ document) := by
    apply Json.ends_of_text_blank
    rw [List.head?_append_of_ne_nil _ (List.ne_nil_of_mem hnewline)]
    exact fun c hc => hgap c (List.mem_of_mem_head? hc)
  have hskip : Json.skipBlanks (text ++ (gap ++ document)) = text ++ (gap ++ document) := by
    apply Json.skipBlanks_self
    obtain ⟨c, cs, rfl, hc⟩ := htext.begins
    rintro _ ⟨⟩
    exact Json.not_blank_of_not_text_blank hc.not_blank
  have hleft : Json.skipBlanks (gap ++ document) ≠ [] := by
    intro hnil
    obtain ⟨c, cs, rfl⟩ := List.exists_cons_of_ne_nil hdocument.not_empty
    have hblank : Json.isBlank c = true := List.dropWhile_eq_nil_iff.mp hnil c (by simp)
    rw [Json.not_blank_of_not_text_blank (hdocument.begins c rfl)] at hblank
    cases hblank
  simp [Json.read?, hskip, htext.reads hends, hleft]

theorem ofLines_eq {lines : List (List Char)} {js : List Json}
    (h : List.Forall₂ (fun line j => Json.read? line = some j) lines js) (index : Nat) :
    Event.ofLines index lines = Event.ofJsons index js := by
  induction h generalizing index with
  | nil => rfl
  | cons hline _ ih => simp only [Event.ofLines, Event.ofJsons, hline, ih]

/-- Values that are padded with blanks are, without these, pieces that spell them. -/
theorem exists_pieces {α : Type} {r : Json.Reader α} {texts : List (List Char)} {as : List α}
    (h : List.Forall₂ (fun text a => '\n' ∉ text ∧ Json.Padded r text a) texts as) :
    ∃ pieces, List.Forall₂ Stripped texts pieces ∧
      List.Forall₂ (fun piece a => (Trimmed piece ∧ '\n' ∉ piece) ∧ Json.Spelling r piece a) pieces as := by
  induction h with
  | nil => exact ⟨[], .nil, .nil⟩
  | cons htext _ ih =>
    obtain ⟨pieces, hstripped, hpieces⟩ := ih
    obtain ⟨hnewline, before, piece, behind, rfl, hbefore, hbehind, hpiece⟩ := htext
    refine ⟨piece :: pieces, .cons ?_ hstripped, .cons ⟨⟨trimmed_of_spelling hpiece, ?_⟩, hpiece⟩ hpieces⟩
    · exact ⟨before, behind, rfl, fun c hc => Json.text_blank_of_blank (hbefore c hc),
        fun c hc => Json.text_blank_of_blank (hbehind c hc)⟩
    · intro hmem
      exact hnewline (by simp [hmem])

/-- Texts one a line give the events of their values. -/
theorem read_lines {depth : Nat} (hdepth : depth < Json.maxDepth) {texts : List (List Char)}
    {js : List Json} (hspells : List.Forall₂ (fun text j => '\n' ∉ text ∧ Json.Spells depth text j) texts js)
    (hsingle : ∀ items, js ≠ [.array items]) {document : List Char} (hlayout : OnLines texts document) :
    Event.read (String.ofList document) = Event.ofJsons 0 js := by
  have hpadded := hspells.imp fun text j h => And.intro h.1 (h.2.padded.mono (.mono hdepth.le))
  obtain ⟨pieces, hstripped, hpieces⟩ := exists_pieces hpadded
  obtain ⟨hlines, hpieces⟩ := (List.forall₂_and_left _ _).mp hpieces
  obtain ⟨before, core, behind, rfl, hbefore, hbehind, hjoined⟩ := hlayout.stripped hstripped
  have hcore := hjoined.trimmed fun piece hpiece => (hlines piece hpiece).1
  have htrim : trim (before ++ core ++ behind) = core := by
    rw [trim_append_blank hbehind, trim_blank_append hbefore, hcore.trim_eq]
  have hkept : keptFrom [] core = pieces := hjoined.kept hlines nofun
  have hread := hpieces.imp fun piece j h => Json.read_of_padded h.padded
  unfold Event.read
  rw [String.toList_ofList, htrim, if_neg (by simpa using hcore.not_empty)]
  cases hjoined with
  | single piece =>
    obtain ⟨j, js, hj, hnone, rfl⟩ := List.forall₂_cons_left_iff.mp hread
    cases hnone
    rw [hj]
    cases j with
    | array items => exact absurd rfl (hsingle items)
    | _ => rfl
  | more hgap hnewline hothers =>
    obtain ⟨j, js, hpiece, hpieces, rfl⟩ := List.forall₂_cons_left_iff.mp hpieces
    have hdocument := hothers.trimmed fun piece hpiece => (hlines piece (List.mem_cons_of_mem _ hpiece)).1
    rw [read_several hpiece hgap hnewline hdocument, ← ofLines_eq hread, ← hkept]
    rfl

/-! ### An array of the values -/

/-- The array with these texts as its items. -/
def arrayOf (texts : List (List Char)) : List Char := '[' :: [','].intercalate texts ++ [']']

/-- A text that is one array gives the events of its items. -/
theorem read_padded_array {text : List Char} {items : List Json}
    (h : Json.Padded (Json.readValue Json.maxDepth) text (.array items)) :
    Event.read (String.ofList text) = Event.ofJsons 0 items := by
  obtain ⟨before, piece, behind, rfl, hbefore, hbehind, hpiece⟩ := h
  have htrimmed := trimmed_of_spelling hpiece
  have htrim : trim (before ++ piece ++ behind) = piece := by
    rw [trim_append_blank fun c hc => Json.text_blank_of_blank (hbehind c hc),
      trim_blank_append fun c hc => Json.text_blank_of_blank (hbefore c hc), htrimmed.trim_eq]
  unfold Event.read
  rw [String.toList_ofList, htrim, if_neg (by simpa using htrimmed.not_empty),
    Json.read_of_padded hpiece.padded]

/-- The array of the texts gives the events of their values. -/
theorem read_array {depth : Nat} (hdepth : depth < Json.maxDepth) {texts : List (List Char)}
    {js : List Json} (hspells : List.Forall₂ (Json.Spells depth) texts js) (hsome : texts ≠ []) :
    Event.read (String.ofList (arrayOf texts)) = Event.ofJsons 0 js := by
  have hpadded := hspells.imp fun text j h => h.padded
  have hnone : ∀ c ∈ [], Json.isBlank c = true := List.forall_mem_nil _
  have hitems : Json.Items (Json.readValue depth) ']' ([','].intercalate texts ++ [']']) js :=
    Json.items_of_spaced hnone hnone hnone hpadded hsome
  have hspelling : Json.Spelling (Json.readValue Json.maxDepth) (arrayOf texts) (.array js) :=
    (Json.Spelling.array (.items hitems)).mono hdepth
  exact read_padded_array hspelling.padded

/-! ### Both ways agree -/

/-- Values of JSON give events, or one of them is no event. -/
theorem ofJsons_cases (index : Nat) (js : List Json) :
    (∃ events, Event.ofJsons index js = .ok events) ∨
      ∃ fault, Event.ofJsons index js = .error (.invalidEvent fault) := by
  induction js generalizing index with
  | nil => exact .inl ⟨[], rfl⟩
  | cons j js ih =>
    cases hevent : Event.ofJson index j with
    | error fault =>
      refine .inr ⟨fault, ?_⟩
      rw [Event.ofJsons, hevent]
      rfl
    | ok event =>
      have hcons : Event.ofJsons index (j :: js) = (Event.ofJsons (index + 1) js).map (event :: ·) := by
        rw [Event.ofJsons, hevent]
        cases Event.ofJsons (index + 1) js <;> rfl
      rw [hcons]
      obtain ⟨events, hevents⟩ | ⟨fault, hfault⟩ := ih (index + 1)
      · exact .inl ⟨event :: events, by rw [hevents]; rfl⟩
      · exact .inr ⟨fault, by rw [hfault]; rfl⟩

/-- JSON texts one a line, with blank lines and blanks anywhere around them, give the same events as the
array of them, or the same fault. -/
theorem events_onLines_as_in_array {depth : Nat} (hdepth : depth < Json.maxDepth)
    {texts : List (List Char)} {js : List Json}
    (hspells : List.Forall₂ (fun text j => '\n' ∉ text ∧ Json.Spells depth text j) texts js)
    (hsingle : ∀ items, js ≠ [.array items]) {document : List Char} (hlayout : OnLines texts document) :
    (∃ events, Event.read (String.ofList document) = .ok events ∧
        Event.read (String.ofList (arrayOf texts)) = .ok events) ∨
      ∃ fault, Event.read (String.ofList document) = .error (.invalidEvent fault) ∧
        Event.read (String.ofList (arrayOf texts)) = .error (.invalidEvent fault) := by
  have hsome : texts ≠ [] := by
    obtain ⟨before, core, behind, -, -, -, hjoined⟩ := hlayout
    cases hjoined <;> exact List.cons_ne_nil _ _
  have hlines := read_lines hdepth hspells hsingle hlayout
  have harray := read_array hdepth (hspells.imp fun _ _ h => h.2) hsome
  rw [hlines, harray]
  obtain ⟨events, hevents⟩ | ⟨fault, hfault⟩ := ofJsons_cases 0 js
  · exact .inl ⟨events, hevents, hevents⟩
  · exact .inr ⟨fault, hfault, hfault⟩

theorem spells_of_any {depth : Nat} {text : List Char}
    (h : (Json.readValue depth (Json.skipBlanks text)).any (fun found => (Json.skipBlanks found.2).isEmpty) = true) :
    ∃ j, Json.Spells depth text j := by
  obtain ⟨⟨j, rest⟩, hread, hrest⟩ := (Option.any_eq_true _ _).mp h
  exact ⟨j, rest, hread, List.isEmpty_iff.mp hrest⟩

theorem events_onLines_as_in_array_of_each_kind :
    ∃ events, Event.read "\n 5 \r\n\n\x7b\"id\": 7, \"value\": true\x7d\n\t\"on\" \n" = .ok events ∧
      Event.read "[5,\x7b\"id\": 7, \"value\": true\x7d,\"on\"]" = .ok events := by
  let texts := ["5".toList, "\x7b\"id\": 7, \"value\": true\x7d".toList, "\"on\"".toList]
  let document := "\n 5 \r\n\n\x7b\"id\": 7, \"value\": true\x7d\n\t\"on\" \n"
  obtain ⟨number, hnumber⟩ : ∃ j, Json.Spells 1 "5".toList j := spells_of_any (by decide +kernel)
  obtain ⟨object, hobject⟩ : ∃ j, Json.Spells 1 "\x7b\"id\": 7, \"value\": true\x7d".toList j :=
    spells_of_any (by decide +kernel)
  obtain ⟨word, hword⟩ : ∃ j, Json.Spells 1 "\"on\"".toList j := spells_of_any (by decide +kernel)
  have hlayout : OnLines texts document.toList := by
    have hblanks {blanks : List Char} (h : blanks.all isBlank = true) : ∀ c ∈ blanks, isBlank c = true :=
      List.all_eq_true.mp h
    have hfirst : ∀ c ∈ " \r\n\n".toList, isBlank c = true := hblanks rfl
    have hsecond : ∀ c ∈ "\n\t".toList, isBlank c = true := hblanks rfl
    exact ⟨"\n ".toList, _, " \n".toList, by decide, hblanks rfl, hblanks rfl,
      .more hfirst (by decide) (.more hsecond (by decide) (.single _))⟩
  have hdepth : 1 < Json.maxDepth := by decide
  obtain h | ⟨fault, hfault, -⟩ := events_onLines_as_in_array hdepth
    (.cons ⟨by decide, hnumber⟩ (.cons ⟨by decide, hobject⟩ (.cons ⟨by decide, hword⟩ .nil)))
    (by simp) hlayout
  · have harray : arrayOf texts = "[5,\x7b\"id\": 7, \"value\": true\x7d,\"on\"]".toList := by decide
    rw [harray, String.ofList_toList, String.ofList_toList] at h
    exact h
  · have hok : (Event.read document).toOption.isSome = true := by decide +kernel
    rw [String.ofList_toList] at hfault
    rw [hfault] at hok
    cases hok

end EventRules
