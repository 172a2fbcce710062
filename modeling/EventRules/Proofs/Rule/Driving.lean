import EventRules.Proofs.Rule.Indexing
import EventRules.Proofs.Rule.Recursion

/-!
# Clients of a parser

A client calls a parser as it likes: it reads expressions, whole texts or programs, remembers places and
goes back to places that it knows, and does the same inside attempts and with other tables. Whatever it
does, each call comes to an end and the parser stays in order (`parser_total_and_valid`): an end token
stands behind the tokens, the place of the parser and the places known are among them, and the tokens are
those of the start with some shorthands expanded. A parser that keeps its place as an index takes the same
way, and none of its lookups leaves the list.
-/

namespace EventRules
set_option autoImplicit false

open Token Routine Parse IndexedParser

/-- `Drives p ms q ms'`: calls of a client that knows the places `ms` lead from the parser `p` to `q`, and
the client knows the places `ms'` then. The calls of an attempt, and those with another table, are a drive
of their own; what becomes of them depends on their answer. -/
inductive Drives : Parser → List Nat → Parser → List Nat → Prop where
  | done (p : Parser) (ms : List Nat) : Drives p ms p ms
  | expression {p q : Parser} {ms ms' : List Nat} (rest : Drives (expression.run p).2 ms q ms') :
    Drives p ms q ms'
  | whole {p q : Parser} {ms ms' : List Nat} (rest : Drives (whole.run p).2 ms q ms') : Drives p ms q ms'
  | program {p q : Parser} {ms ms' : List Nat} (rest : Drives (program.run p).2 ms q ms') :
    Drives p ms q ms'
  | mark {p q : Parser} {ms ms' : List Nat} (rest : Drives p (p.mark :: ms) q ms') : Drives p ms q ms'
  | rewind {p q : Parser} {ms ms' : List Nat} {place : Nat} (known : place ∈ ms)
    (rest : Drives (p.rewound place) ms q ms') : Drives p ms q ms'
  | attempt {α : Type} {p q : Parser} {ms ms₁ ms' : List Nat} (m : Parse (Option α))
    (inner : Drives p ms (m.run p).2 ms₁) (rest : Drives ((attempt m).run p).2 ms₁ q ms') :
    Drives p ms q ms'
  | withTable {α : Type} {p q : Parser} {ms ms₁ ms' : List Nat} (table : Precedence) (m : Parse α)
    (inner : Drives { p with table } ms (m.run { p with table }).2 ms₁)
    (rest : Drives ((withTable table m).run p).2 ms₁ q ms') : Drives p ms q ms'

/-- The client comes by the parser `q` on its way from `p`, maybe inside calls with other tables. -/
inductive Visits : Parser → List Nat → Parser → List Nat → Prop where
  | after {p q : Parser} {ms ms' : List Nat} (h : Drives p ms q ms') : Visits p ms q ms'
  | inside {p q r : Parser} {ms ms₁ ms' : List Nat} (table : Precedence) (h : Drives p ms q ms₁)
    (inner : Visits { q with table } ms₁ r ms') : Visits p ms r ms'

namespace Parser

variable {p q r : Parser} {ts : List Token} {ms ms₁ ms' : List Nat} {k : Nat}

theorem take_tokens (h : k ≤ p.mark) : p.tokens.take k = p.passed.reverse.take k := by
  rw [tokens, List.append_assoc, List.take_append_of_le_length (by simpa [mark] using h)]

theorem Reaches.mark (h : p.Reaches ts q) : q.mark = p.mark + ts.length := by
  rw [Parser.mark, h.passed, List.length_append, List.length_reverse, Nat.add_comm]
  rfl

theorem Reaches.expanded (h : p.Reaches ts q) : Expanded p.tokens q.tokens := by
  have hahead := (h.unfolds (.refl q.ahead)).expanded
  have htokens : q.tokens = p.passed.reverse ++ (ts ++ q.ahead) ++ [p.last] := by
    rw [tokens, h.passed, h.last]
    simp
  rw [htokens, tokens]
  exact ((Expanded.refl _).append hahead).append (.refl _)

/-- What the way from `p` to `q` leaves as it was. -/
structure Sustains (p : Parser) (ms : List Nat) (q : Parser) (ms' : List Nat) : Prop where
  ended : q.last.isEnd = true
  known : ∀ k ∈ ms', k < q.tokens.length
  expanded : Expanded p.tokens q.tokens
  table : q.table = p.table
  before : ∀ k ≤ p.mark, (∀ j ∈ ms, k ≤ j) →
    k ≤ q.mark ∧ (∀ j ∈ ms', k ≤ j) ∧ q.tokens.take k = p.tokens.take k
  steps : ∀ marks, ms ⊆ marks →
    ∃ marks', ms' ⊆ marks' ∧ marks ⊆ marks' ∧ Steps (p.indexed, marks) (q.indexed, marks')

namespace Sustains

theorem refl (hlast : p.last.isEnd = true) (hms : ∀ k ∈ ms, k < p.tokens.length) : Sustains p ms p ms :=
  ⟨hlast, hms, .refl _, rfl, fun _ hk hj => ⟨hk, hj, rfl⟩,
    fun marks h => ⟨marks, h, List.Subset.refl marks, .refl⟩⟩

theorem trans (h : Sustains p ms q ms₁) (h' : Sustains q ms₁ r ms') : Sustains p ms r ms' := by
  refine ⟨h'.ended, h'.known, h.expanded.trans h'.expanded, h'.table.trans h.table, fun k hk hj => ?_,
    fun marks hmarks => ?_⟩
  · obtain ⟨hq, hj₁, htake⟩ := h.before k hk hj
    obtain ⟨hr, hj', htake'⟩ := h'.before k hq hj₁
    exact ⟨hr, hj', htake'.trans htake⟩
  · obtain ⟨marks₁, hmarks₁, hle, hsteps⟩ := h.steps marks hmarks
    obtain ⟨marks', hmarks', hle', hsteps'⟩ := h'.steps marks₁ hmarks₁
    exact ⟨marks', hmarks', List.Subset.trans hle hle', hsteps.trans hsteps'⟩

theorem of_reaches (h : p.Reaches ts q) (hlast : p.last.isEnd = true)
    (hms : ∀ k ∈ ms, k < p.tokens.length) : Sustains p ms q ms := by
  have hmark := h.mark
  refine ⟨h.ended hlast, fun k hk => ?_, h.expanded, h.table, fun k hk hj => ⟨by omega, hj, ?_⟩,
    fun marks hmarks => ⟨marks, hmarks, List.Subset.refl marks, h.steps hlast marks⟩⟩
  · exact Nat.lt_of_lt_of_le (hms k hk) h.expanded.length_le
  · rw [take_tokens hk, take_tokens (by omega : k ≤ q.mark), h.passed, List.reverse_append,
      List.reverse_reverse, List.take_append_of_le_length (by simpa [Parser.mark] using hk)]

/-- A place that the client remembers is among the tokens. -/
theorem mark (hlast : p.last.isEnd = true) (hms : ∀ k ∈ ms, k < p.tokens.length) :
    Sustains p ms p (p.mark :: ms) := by
  have hlen := p.length_tokens
  refine ⟨hlast, fun k hk => ?_, .refl _, rfl, fun k hk hj => ⟨hk, fun j hj' => ?_, rfl⟩,
    fun marks hmarks => ⟨p.mark :: marks, List.cons_subset_cons p.mark hmarks,
      List.subset_cons_self p.mark marks, .single (.mark p.indexed marks)⟩⟩
  · rcases List.mem_cons.mp hk with rfl | hk
    · omega
    · exact hms k hk
  · rcases List.mem_cons.mp hj' with rfl | hj'
    · exact hk
    · exact hj j hj'

/-- Going back moves the parser only, to where it began or to a place known then. -/
theorem rewound (h : Sustains p ms q ms') (hms : ∀ k ∈ ms, k < p.tokens.length) (hk : k ∈ p.mark :: ms) :
    Sustains p ms (q.rewound k) ms' := by
  have htokens := q.tokens_rewound k
  have hlength := h.expanded.length_le
  have hlt : k < q.tokens.length := by
    have hmark := p.length_tokens
    rcases List.mem_cons.mp hk with rfl | hk
    · omega
    · exact Nat.lt_of_lt_of_le (hms k hk) hlength
  refine ⟨h.ended, ?_, ?_, h.table, fun i hi hj => ?_, fun marks hmarks => ?_⟩
  · rw [htokens]
    exact h.known
  · rw [htokens]
    exact h.expanded
  · obtain ⟨-, hj', htake⟩ := h.before i hi hj
    rw [htokens, mark_rewound hlt]
    refine ⟨?_, hj', htake⟩
    rcases List.mem_cons.mp hk with rfl | hk
    · exact hi
    · exact hj k hk
  · -- the place where it began is marked first
    obtain ⟨marks', hmarks', hle, hsteps⟩ := h.steps (p.mark :: marks) (List.subset_cons_of_subset _ hmarks)
    refine ⟨marks', hmarks', List.Subset.trans (List.subset_cons_self p.mark marks) hle, ?_⟩
    have hknown : k ∈ marks' := hle (List.cons_subset_cons p.mark hmarks hk)
    rw [rewound_indexed hlt]
    exact .head (.mark p.indexed marks) (hsteps.tail (.rewind q.indexed hknown))

protected theorem withTable {table : Precedence} (h : Sustains { p with table } ms q ms') :
    Sustains p ms { q with table := p.table } ms' := by
  refine ⟨h.ended, h.known, h.expanded, rfl, h.before, fun marks hmarks => ?_⟩
  obtain ⟨marks', hmarks', hle, hsteps⟩ := h.steps marks hmarks
  exact ⟨marks', hmarks', hle, .head (.install p.indexed marks table)
    (hsteps.tail (.install q.indexed marks' p.table))⟩

end Sustains

end Parser

theorem attempt_state {α : Type} (m : Parse (Option α)) (p : Parser) :
    ((attempt m).run p).2 = (m.run p).2 ∨ ((attempt m).run p).2 = ((m.run p).2).rewound p.mark := by
  rw [Routine.run, attempt]
  cases hrun : m.run p with
  | mk r q =>
    cases r with
    | error e => exact Or.inl rfl
    | ok answer =>
      cases answer with
      | none => exact Or.inr rfl
      | some a => exact Or.inl rfl

theorem Drives.sustains {p q : Parser} {ms ms' : List Nat} (h : Drives p ms q ms')
    (hlast : p.last.isEnd = true) (hms : ∀ k ∈ ms, k < p.tokens.length) : p.Sustains ms q ms' := by
  induction h with
  | done p ms => exact .refl hlast hms
  | @expression p q ms ms' _ ih =>
    obtain ⟨ts, hts, -⟩ := (expression_walks hlast).passes
    have hfirst := Parser.Sustains.of_reaches hts hlast hms
    exact hfirst.trans (ih hfirst.ended hfirst.known)
  | @whole p q ms ms' _ ih =>
    obtain ⟨ts, hts, -⟩ := (whole_walks hlast).passes
    have hfirst := Parser.Sustains.of_reaches hts hlast hms
    exact hfirst.trans (ih hfirst.ended hfirst.known)
  | @program p q ms ms' _ ih =>
    obtain ⟨ts, hts, -⟩ := (program_walks hlast).passes
    have hfirst := Parser.Sustains.of_reaches hts hlast hms
    exact hfirst.trans (ih hfirst.ended hfirst.known)
  | @mark p q ms ms' _ ih =>
    have hfirst := Parser.Sustains.mark hlast hms
    exact hfirst.trans (ih hfirst.ended hfirst.known)
  | @rewind p q ms ms' place hplace _ ih =>
    have hfirst := (Parser.Sustains.refl hlast hms).rewound hms (List.mem_cons_of_mem p.mark hplace)
    exact hfirst.trans (ih hfirst.ended hfirst.known)
  | @attempt α p q ms ms₁ ms' m _ _ ihInner ih =>
    have hinner := ihInner hlast hms
    have hfirst : p.Sustains ms ((Parse.attempt m).run p).2 ms₁ := by
      rcases attempt_state m p with heq | heq
      · rw [heq]
        exact hinner
      · rw [heq]
        exact hinner.rewound hms List.mem_cons_self
    exact hfirst.trans (ih hfirst.ended hfirst.known)
  | @withTable α p q ms ms₁ ms' table m _ _ ihInner ih =>
    have hfirst : p.Sustains ms ((Parse.withTable table m).run p).2 ms₁ :=
      (ihInner hlast hms).withTable
    exact hfirst.trans (ih hfirst.ended hfirst.known)

theorem Visits.sustains {p q : Parser} {ms ms' : List Nat} (h : Visits p ms q ms')
    (hlast : p.last.isEnd = true) (hms : ∀ k ∈ ms, k < p.tokens.length) :
    q.last.isEnd = true ∧ (∀ k ∈ ms', k < q.tokens.length) ∧ Expanded p.tokens q.tokens ∧
      ∀ marks, ms ⊆ marks → ∃ marks', ms' ⊆ marks' ∧ Steps (p.indexed, marks) (q.indexed, marks') := by
  induction h with
  | after h =>
    have hsustains := h.sustains hlast hms
    refine ⟨hsustains.ended, hsustains.known, hsustains.expanded, fun marks hmarks => ?_⟩
    obtain ⟨marks', hmarks', -, hsteps⟩ := hsustains.steps marks hmarks
    exact ⟨marks', hmarks', hsteps⟩
  | @inside p q r ms ms₁ ms' table h _ ih =>
    have hsustains := h.sustains hlast hms
    obtain ⟨hended, hknown, hexpanded, hinner⟩ := ih hsustains.ended hsustains.known
    refine ⟨hended, hknown, hsustains.expanded.trans hexpanded, fun marks hmarks => ?_⟩
    obtain ⟨marks₁, hmarks₁, -, hsteps⟩ := hsustains.steps marks hmarks
    obtain ⟨marks', hmarks', hsteps'⟩ := hinner marks₁ hmarks₁
    exact ⟨marks', hmarks', (hsteps.tail (.install q.indexed marks₁ table)).trans hsteps'⟩

/-! ### What a client can rely on -/

/-- The parser is in order: its places are among its tokens, and these are the tokens at the start with
some shorthands expanded. -/
structure Parser.InOrder (start : List Token) (p : Parser) (ms : List Nat) : Prop where
  ended : ∃ front t, p.tokens = front ++ [t] ∧ t.isEnd = true
  cursor : p.tokens[p.mark]? = some p.current
  lookahead : ∀ n, p.mark + n < p.tokens.length → p.tokens[p.mark + n]? = some (p.peek n)
  shorthand : ∀ n, shorthandEnd? p.ahead = some n → p.mark + n < p.tokens.length
  known : ∀ k ∈ ms, k < p.tokens.length ∧ (p.rewound k).mark = k ∧ (p.rewound k).tokens = p.tokens
  expanded : Expanded start p.tokens

/-- Calls that go back to no other earlier places than those of `ms` leave the table and the tokens in
front as they were: up to the place where they begin and up to the places of `ms`. -/
structure Parser.Undisturbed (p : Parser) (ms : List Nat) (q : Parser) : Prop where
  table : q.table = p.table
  longer : p.tokens.length ≤ q.tokens.length
  before : ∀ k ≤ p.mark, (∀ j ∈ ms, k ≤ j) → q.tokens.take k = p.tokens.take k

/-- The parser with the place as an index has come here by its steps, and answers as this one does. None of
its lookups leaves the list, whatever steps it takes. -/
structure Parser.OnIndices (start : IndexedParser) (p : Parser) (ms : List Nat) : Prop where
  refines : p.Refines
  steps : ∃ marks, ms ⊆ marks ∧ Steps (start, []) (p.indexed, marks)
  safe : ∀ s marks, Steps (start, []) (s, marks) → s.Valid marks ∧ s.InRange

namespace Parser

theorem inOrder {start : List Token} {p : Parser} {ms : List Nat} (hlast : p.last.isEnd = true)
    (hms : ∀ k ∈ ms, k < p.tokens.length) (h : Expanded start p.tokens) : p.InOrder start ms where
  ended := ⟨p.passed.reverse ++ p.ahead, p.last, rfl, hlast⟩
  cursor := p.peek_tokens (n := 0) (by rw [length_tokens]; omega)
  lookahead n := p.peek_tokens
  shorthand n hn := by
    obtain ⟨span, rest, hp, hlen, -⟩ := isShorthand_of_end hn
    rw [length_tokens, hp, List.length_append]
    omega
  known k hk := ⟨hms k hk, mark_rewound (hms k hk), p.tokens_rewound k⟩
  expanded := h

end Parser

/-- Every call of a client comes to an end, and the parser stays in order at all times, also with its place
as an index. A call disturbs neither the table nor the tokens before it, and takes none away. -/
theorem parser_total_and_valid (tokens : List Token) (table : Precedence) {p : Parser} {ms : List Nat}
    (hvisits : Visits (Parser.ofTokens tokens table) [] p ms) :
    GrammarDetermined ∧ p.InOrder (Parser.closed tokens) ms ∧
      p.OnIndices (IndexedParser.ofTokens tokens table) ms ∧
      ∀ known ⊆ ms, ∀ q ms', Drives p known q ms' → p.Undisturbed known q := by
  obtain ⟨hlast, hms, hexpanded, hsteps⟩ :=
    hvisits.sustains (Parser.ofTokens_last tokens table) fun k hk => nomatch hk
  rw [Parser.tokens_ofTokens] at hexpanded
  rw [Parser.indexed_ofTokens] at hsteps
  have hsafe : ∀ s marks, Steps (IndexedParser.ofTokens tokens table, []) (s, marks) →
      s.Valid marks ∧ s.InRange := fun s marks h =>
    have hvalid : s.Valid marks := Steps.valid h (IndexedParser.ofTokens_valid tokens table)
    ⟨hvalid, hvalid.inRange⟩
  refine ⟨grammarDetermined, Parser.inOrder hlast hms hexpanded,
    ⟨Parser.refines hlast, hsteps [] (List.Subset.refl []), hsafe⟩, fun known hknown q ms' hdrives => ?_⟩
  have hsustains := hdrives.sustains hlast fun k hk => hms k (hknown hk)
  exact ⟨hsustains.table, hsustains.expanded.length_le, fun k hk hj => (hsustains.before k hk hj).2.2⟩

/-- An operand is missing at the end of `<1> +`, which is read with the table of bounds; the client goes
back to the start and reads it as a whole text. -/
theorem parser_total_and_valid_after_error :
    let tokens := [Mark.op "<", .sign .integer "1", .op ">", .op "+"].map Mark.token
    let start := Parser.ofTokens tokens .standard
    let r := (withTable .arithmetic expression).run start
    let q := (whole.run (r.2.rewound 0)).2
    (r.1.isOk = false ∧ start.tokens.length = 5 ∧ r.2.tokens.length = 6) ∧ Visits start [] r.2 [0] ∧
      GrammarDetermined ∧ r.2.InOrder (Parser.closed tokens) [0] ∧
      r.2.OnIndices (IndexedParser.ofTokens tokens .standard) [0] ∧ Drives r.2 [0] q [0] ∧
        r.2.Undisturbed [0] q := by
  intro tokens start r q
  have hvisits : Visits start [] r.2 [0] :=
    .after (.mark (.withTable .arithmetic expression (.expression (.done _ _)) (.done _ _)))
  have hdrives : Drives r.2 [0] q [0] := .rewind List.mem_cons_self (.whole (.done _ _))
  obtain ⟨hgrammar, horder, hindices, hcalls⟩ := parser_total_and_valid tokens .standard hvisits
  have hundisturbed := hcalls [0] (List.Subset.refl [0]) q [0] hdrives
  exact ⟨by decide +kernel, hvisits, hgrammar, horder, hindices, hdrives, hundisturbed⟩

end EventRules
