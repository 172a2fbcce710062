import EventRules.Proofs.Rule.Respelling
import EventRules.Proofs.Rule.RoundTrip

/-!
# Recognizing and expanding the shorthand

`ReadsShorthand values span` says that a span reads `<v,…,w>` with just these values. The lookahead
finds a shorthand at the head of the tokens where they begin with such a span, and nowhere else; there
is one at most. The expansion of a span reads as the arrow of the comparisons with its values, one stage
for each in their order, and what it has for a value stands in the place of that value.
-/

namespace EventRules
set_option autoImplicit false

open Token Routine Parse

/-! ### The grammar -/

/-- A span of tokens that reads `<v,…,w>`, with its values: literals, and none of them a duration. -/
structure ReadsShorthand (values span : List Token) : Prop where
  inhabited : values ≠ []
  literal : ∀ v ∈ values, v.isShorthandValue = true
  spelled : Spells (.op "<" :: ownListedMarks values) span

namespace ReadsShorthand

variable {values span : List Token}

theorem scalar (h : ReadsShorthand values span) : ∀ v ∈ values, v.isScalar = true :=
  fun v hv => scalar_of_value (h.literal v hv)

/-- The values are all literals of the span. -/
theorem scalars (h : ReadsShorthand values span) : span.filter isScalar = values :=
  (shorthand_of_own h.scalar h.spelled).2

theorem shorthand_spelled (h : ReadsShorthand values span) : Spells (shorthandMarks values) span :=
  (shorthand_of_own h.scalar h.spelled).1

end ReadsShorthand

theorem shorthandEnd_iff {ts : List Token} {n : Nat} :
    shorthandEnd? ts = some n ↔
      n < ts.length ∧ ∃ values, ReadsShorthand values (ts.take (n + 1)) := by
  constructor
  · intro h
    obtain ⟨values, span, rest, rfl, hlen, hne, hvalues, hspan⟩ := own_of_shorthandEnd h
    refine ⟨?_, values, hne, hvalues, ?_⟩
    · rw [List.length_append]
      omega
    · rwa [← hlen, List.take_left]
  · rintro ⟨hn, values, h⟩
    -- what stands behind the closing sign makes no difference to the scan
    obtain ⟨m, hm, hend⟩ := shorthandEnd_of_spelled h.inhabited h.literal h.shorthand_spelled
    have hend := hend (ts.drop (n + 1))
    have hmn : m = n := by
      rw [List.length_take] at hm
      omega
    rwa [List.take_append_drop, hmn] at hend

/-- Tokens begin with one shorthand at most. -/
theorem readsShorthand_unique {ts values values' : List Token} {m n : Nat} (hm : m < ts.length)
    (hn : n < ts.length) (h : ReadsShorthand values (ts.take (m + 1)))
    (h' : ReadsShorthand values' (ts.take (n + 1))) : m = n ∧ values = values' := by
  have hend := shorthandEnd_iff.mpr ⟨hm, values, h⟩
  have hend' := shorthandEnd_iff.mpr ⟨hn, values', h'⟩
  obtain rfl : m = n := Option.some.inj (hend.symm.trans hend')
  exact ⟨rfl, h.scalars.symm.trans h'.scalars⟩

/-! ### The tokens of an expansion -/

/-- The tokens of an expansion for a value behind the first one. -/
def linkedStage (v : Token) : List Token := ⟨.operator, "->", v.position⟩ :: equalityStage v

/-- Tokens that are generated for a value: it is their only literal, and they stand in its place. -/
structure GeneratedFor (v : Token) (group : List Token) : Prop where
  scalars : group.filter isScalar = [v]
  placed : ∀ t ∈ group, t.position = v.position

theorem generated_stage {v : Token} (hv : v.isScalar = true) : GeneratedFor v (equalityStage v) := by
  refine ⟨?_, fun t ht => ?_⟩
  · have hsign : ∀ kind s, kind = .operator ∨ kind = .bracket →
        ¬ (⟨kind, s, v.position⟩ : Token).isScalar = true := by
      rintro kind s (rfl | rfl) <;> simp [isScalar]
    rw [equalityStage, List.filter_cons_of_neg (hsign _ _ (.inr rfl)),
      List.filter_cons_of_neg (hsign _ _ (.inl rfl)), List.filter_cons_of_pos hv,
      List.filter_cons_of_neg (hsign _ _ (.inr rfl)), List.filter_nil]
  · simp only [equalityStage, List.mem_cons, List.not_mem_nil, or_false] at ht
    rcases ht with rfl | rfl | rfl | rfl <;> rfl

theorem generated_linkedStage {v : Token} (hv : v.isScalar = true) : GeneratedFor v (linkedStage v) := by
  have hstage := generated_stage hv
  refine ⟨?_, fun t ht => ?_⟩
  · rw [linkedStage, List.filter_cons_of_neg (by simp [isScalar]), hstage.scalars]
  · rcases List.mem_cons.mp ht with rfl | ht
    · rfl
    · exact hstage.placed t ht

theorem expand_of_scalars {span vs : List Token} {v : Token} (h : span.filter isScalar = v :: vs) :
    expandShorthand span = equalityStage v ++ vs.flatMap linkedStage := by
  rw [expandShorthand, h]
  rfl

theorem expansion_generated {values span : List Token} (h : ReadsShorthand values span) :
    ∃ groups, expandShorthand span = groups.flatten ∧ List.Forall₂ GeneratedFor values groups := by
  obtain ⟨v, vs, rfl⟩ := List.exists_cons_of_ne_nil h.inhabited
  refine ⟨equalityStage v :: vs.map linkedStage, expand_of_scalars h.scalars, ?_⟩
  refine .cons (generated_stage (h.scalar v List.mem_cons_self)) ?_
  rw [List.forall₂_map_right_iff, List.forall₂_same]
  exact fun w hw => generated_linkedStage (h.scalar w (List.mem_cons_of_mem v hw))

/-! ### The arrow of an expansion -/

namespace Parse

/-- The stage that compares with the literal of a token, in the place of the token. -/
def equalTo (value : Literal) (v : Token) : Stage Expr :=
  ⟨⟨.bracket, "\x7b", v.position⟩, .compare .equal (.scalar value v)⟩

variable {table : Precedence} {last v : Token} {vs rest : List Token} {depth : Nat}
  {literal : Token → Literal}

theorem reads_equalityStage {value : Literal} (hv : v.isScalar = true) (hl : literalOf v = .ok value) :
    Reads (stage (nestedExpression (depth + 2))) table last (equalityStage v) rest (equalTo value v) := by
  have hn := readsWritten_nested (depth + 1)
  have hoperand : (Expr.scalar value v).Writable true := ⟨hv, hl⟩
  have hmarks : Spells (Expr.compare .equal (.scalar value v)).marks
      [⟨.operator, "==", v.position⟩, v] := .cons ⟨rfl, rfl⟩ (.cons rfl .nil)
  have hlen : [(⟨.operator, "==", v.position⟩ : Token), v].length ≤ depth + 1 + 1 := by simp
  have hclosing : (⟨.bracket, "\x7d", v.position⟩ : Token).isBracket "\x7d" = true := rfl
  have hbody : Reads (nestedExpression (depth + 2)) .standard last
      [⟨.operator, "==", v.position⟩, v] (⟨.bracket, "\x7d", v.position⟩ :: rest)
      (.compare .equal (.scalar value v)) :=
    reads_joined_comparison hn hoperand hmarks hlen hclosing (by decide)
  have hsplit : equalityStage v = ⟨.bracket, "\x7b", v.position⟩ ::
      ([⟨.operator, "==", v.position⟩, v] ++ [⟨.bracket, "\x7d", v.position⟩]) := rfl
  rw [hsplit]
  refine Reads.token_bind (Reads.expect rfl rfl) (Reads.bind (Reads.withTable hbody) ?_)
  exact Reads.settle (Reads.expectClosing hclosing rfl) (Reads.pure _)

theorem reads_equality_arrow
    (hvs : ∀ u ∈ v :: vs, u.isScalar = true ∧ literalOf u = .ok (literal u))
    (hrest : (follower last rest).isOperator "->" = false) :
    Reads (arrow (nestedExpression (depth + 2))) table last (equalityStage v ++ vs.flatMap linkedStage) rest
      (.arrow ((v :: vs).map fun u => equalTo (literal u) u)) := by
  obtain ⟨hv, hl⟩ := hvs v List.mem_cons_self
  -- a further stage is one round of the repetition, with the sign before it
  have hothers : Reads (many (·.isOperator "->") do
        let _ ← advance
        stage (nestedExpression (depth + 2))) table last (vs.flatMap linkedStage) rest
      (vs.map fun u => equalTo (literal u) u) := by
    have hpieces : ∀ piece ∈ vs.map (fun u => (linkedStage u, equalTo (literal u) u)),
        ∃ t us, piece.1 = t :: us ∧ t.isOperator "->" = true ∧ True ∧
          ∀ rest, True → Reads (do
            let _ ← advance
            stage (nestedExpression (depth + 2))) table last piece.1 rest piece.2 := by
      intro piece hp
      obtain ⟨u, hu, rfl⟩ := List.mem_map.mp hp
      obtain ⟨hscalar, hliteral⟩ := hvs u (List.mem_cons_of_mem v hu)
      exact ⟨_, _, rfl, rfl, trivial, fun _ _ =>
        Reads.token_bind (Reads.advance rfl) (reads_equalityStage hscalar hliteral)⟩
    have hmany := Reads.many (fun _ => True) hpieces trivial hrest
    rwa [List.flatMap_map, List.map_map] at hmany
  exact Reads.bind (reads_equalityStage hv hl) (Reads.settle hothers (Reads.pure _))

theorem reads_expansion (hvs : ∀ u ∈ v :: vs, u.isScalar = true ∧ literalOf u = .ok (literal u))
    (hlast : last.isEnd = true) :
    Reads whole table last (equalityStage v ++ vs.flatMap linkedStage) []
      (.arrow ((v :: vs).map fun u => equalTo (literal u) u)) := by
  have hrest : Ends table (follower last []) := ends_end hlast table
  have hend : Reads expectEnd table last [] [] () := Reads.sees_bind true hlast (Reads.pure ())
  refine Reads.settle (Reads.state_bind fun passed => ?_) (Reads.peek hend (Reads.pure _))
  -- the operand of a comparison stands two levels below the arrow
  have hweight := length_le_weight (equalityStage v ++ vs.flatMap linkedStage)
  obtain ⟨depth, hdepth⟩ : ∃ depth, weight (equalityStage v ++ vs.flatMap linkedStage) = depth + 2 := by
    rw [List.length_append] at hweight
    have hstage : (equalityStage v).length = 4 := rfl
    exact ⟨_, (Nat.sub_add_cancel (by omega)).symm⟩
  simp only [List.append_nil, hdepth]
  refine reads_joined ?_ hrest
  refine Reads.peek (Reads.many_none rfl) (Reads.settle ?_ (Reads.pure _))
  have hopening : (⟨.bracket, "\x7b", v.position⟩ : Token).isBracket "\x7b" = true := rfl
  exact primary_of_bracket hopening (reads_equality_arrow hvs hrest.no_arrow)

end Parse

theorem parse_expansion {values span : List Token} (h : ReadsShorthand values span)
    {literal : Token → Literal} (hliteral : ∀ v ∈ values, literalOf v = .ok (literal v))
    (table : Precedence) :
    (whole.run (Parser.ofTokens (expandShorthand span) table)).1 =
      .ok (.arrow (values.map fun v => equalTo (literal v) v)) := by
  obtain ⟨front, c, hexpand, hc⟩ :=
    arrow_ends h.inhabited (expansion_of_shorthand h.literal h.shorthand_spelled)
  obtain ⟨v, vs, rfl⟩ := List.exists_cons_of_ne_nil h.inhabited
  have hlast := Parser.endBehind_isEnd (expandShorthand span)
  have hreads : Reads whole table (Parser.endBehind (expandShorthand span))
      (equalityStage v ++ vs.flatMap linkedStage) []
      (.arrow ((v :: vs).map fun u => equalTo (literal u) u)) :=
    reads_expansion (fun u hu => ⟨h.scalar u hu, hliteral u hu⟩) hlast
  have hrun := hreads []
  rw [List.append_nil, ← expand_of_scalars h.scalars] at hrun
  rw [Parser.ofTokens_open hexpand hc.not_end, hrun]

/-- The lookahead for the shorthand implements its grammar, which is unambiguous, and the expansion
stands for it: it reads as the arrow of the comparisons with the values, each one in its place. -/
theorem shorthand_grammar (ts : List Token) :
    (∀ n, shorthandEnd? ts = some n ↔
      n < ts.length ∧ ∃ values, ReadsShorthand values (ts.take (n + 1))) ∧
    (∀ m n values values', m < ts.length → n < ts.length → ReadsShorthand values (ts.take (m + 1)) →
      ReadsShorthand values' (ts.take (n + 1)) → m = n ∧ values = values') ∧
    ∀ values span, ReadsShorthand values span →
      (∀ literal : Token → Literal, (∀ v ∈ values, literalOf v = .ok (literal v)) → ∀ table,
        (whole.run (Parser.ofTokens (expandShorthand span) table)).1 =
          .ok (.arrow (values.map fun v => equalTo (literal v) v))) ∧
      ∃ groups, expandShorthand span = groups.flatten ∧ List.Forall₂ GeneratedFor values groups := by
  refine ⟨fun n => shorthandEnd_iff, fun m n values values' hm hn => readsShorthand_unique hm hn, ?_⟩
  intro values span h
  exact ⟨fun literal hliteral => parse_expansion h hliteral, expansion_generated h⟩

/-- A number, a text and a truth value on two lines, in front of another operand:
`<-2,'a'` and `,true>&&x`. -/
theorem shorthand_grammar_across_lines :
    let number : Token := ⟨.integer, "-2", ⟨1, 1, 2⟩⟩
    let text : Token := ⟨.text, "a", ⟨4, 1, 5⟩⟩
    let truth : Token := ⟨.boolean, "true", ⟨9, 2, 2⟩⟩
    let values := [number, text, truth]
    let span : List Token := [⟨.operator, "<", ⟨0, 1, 1⟩⟩, number, ⟨.operator, ",", ⟨3, 1, 4⟩⟩, text,
      ⟨.operator, ",", ⟨8, 2, 1⟩⟩, truth, ⟨.operator, ">", ⟨13, 2, 6⟩⟩]
    let ts : List Token := span ++ [⟨.operator, "&&", ⟨14, 2, 7⟩⟩, ⟨.name, "x", ⟨16, 2, 9⟩⟩]
    ReadsShorthand values (ts.take 7) ∧ shorthandEnd? ts = some 6 ∧
      (∀ n values', n < ts.length → ReadsShorthand values' (ts.take (n + 1)) →
        6 = n ∧ values = values') ∧
      (∀ table, (whole.run (Parser.ofTokens (expandShorthand span) table)).1 =
        .ok (.arrow [equalTo (.integer (-2)) number, equalTo (.text "a") text,
          equalTo (.boolean true) truth])) ∧
      ∃ groups, expandShorthand span = groups.flatten ∧ List.Forall₂ GeneratedFor values groups := by
  intro number text truth values span ts
  have hspan : ReadsShorthand values span := by
    refine ⟨by simp [values], by decide, ?_⟩
    exact .cons ⟨rfl, rfl⟩ (.cons rfl (.cons ⟨rfl, rfl⟩ (.cons rfl (.cons ⟨rfl, rfl⟩ (.cons rfl
      (.cons ⟨rfl, rfl⟩ .nil))))))
  have htake : ts.take 7 = span := rfl
  obtain ⟨hend, hunique, hexpansion⟩ := shorthand_grammar ts
  let literal (v : Token) : Literal :=
    match v.kind with
    | .integer => .integer (-2)
    | .text => .text "a"
    | _ => .boolean true
  have hliteral : ∀ v ∈ values, literalOf v = .ok (literal v) := by decide +kernel
  obtain ⟨hparse, hgroups⟩ := hexpansion values span hspan
  rw [← htake] at hspan
  exact ⟨hspan, (hend 6).mpr ⟨by decide, values, hspan⟩,
    fun n values' hn h => hunique 6 n values values' (by decide) hn hspan h,
    hparse literal hliteral, hgroups⟩

end EventRules
