import Mathlib.Data.List.Forall2
import EventRules.Rule.Parser.Expression

/-!
# Expressions written in full

An expression is written in full when every binary, prefix and compare operation and every anonymous
function stands in parentheses, and the whole expression too. `Expr.marks` lists what such a text
consists of; a token list is a text of the expression when it shows one mark after the other. The
tokens that an expression carries are shown as they are, all others may stand at any place, except
that the sign of a strict call touches the name.

`Expr.Writable` is the language for which this is done: the tokens spell what the tree says, and an
operator that no range bound and no compare operand can hold does not stand in one.
-/

namespace EventRules
set_option autoImplicit false

/-! ### Tokens and their kinds -/

theorem bracket_of_isBracket {t : Token} {s : String} (h : t.isBracket s = true) :
    t.kind = .bracket ∧ t.text = s := by
  simpa [Token.isBracket] using h

theorem operator_of_isOperator {t : Token} {s : String} (h : t.isOperator s = true) :
    t.kind = .operator ∧ t.text = s := by
  simpa [Token.isOperator] using h

theorem not_operator_of_bracket {t : Token} (h : t.kind = .bracket) (s : String) :
    t.isOperator s = false := by
  simp [Token.isOperator, h]

theorem not_bracket_of_operator {t : Token} (h : t.kind = .operator) (s : String) :
    t.isBracket s = false := by
  simp [Token.isBracket, h]

theorem not_end_of_kind {t : Token} (h : t.kind ≠ .endOfInput) : t.isEnd = false := by
  simpa [Token.isEnd] using h

theorem not_end_of_bracket {t : Token} {s : String} (h : t.isBracket s = true) : t.isEnd = false :=
  not_end_of_kind (by simp [(bracket_of_isBracket h).1])

theorem not_end_of_operator {t : Token} (h : t.kind = .operator) : t.isEnd = false :=
  not_end_of_kind (by simp [h])

theorem not_end_of_name {t : Token} (h : t.isName = true) : t.isEnd = false := by
  have hk : t.kind = .name := by simpa [Token.isName] using h
  exact not_end_of_kind (by simp [hk])

theorem keyword_of_isKeyword {t : Token} {word : String} (h : t.isKeyword word = true) :
    t.kind = .keyword ∧ t.text = word := by
  simpa [Token.isKeyword] using h

theorem not_end_of_keyword {t : Token} {word : String} (h : t.isKeyword word = true) :
    t.isEnd = false :=
  not_end_of_kind (by simp [(keyword_of_isKeyword h).1])

theorem not_name_of_end {t : Token} (h : t.isEnd = true) : t.isName = false := by
  have hkind : t.kind = .endOfInput := by simpa [Token.isEnd] using h
  simp [Token.isName, hkind]

theorem not_operator_of_end {t : Token} (h : t.isEnd = true) (s : String) : t.isOperator s = false := by
  have hkind : t.kind = .endOfInput := by simpa [Token.isEnd] using h
  simp [Token.isOperator, hkind]

theorem not_bracket_of_end {t : Token} (h : t.isEnd = true) (s : String) : t.isBracket s = false := by
  have hkind : t.kind = .endOfInput := by simpa [Token.isEnd] using h
  simp [Token.isBracket, hkind]

/-! ### Marks -/

/-- What one token of a written expression has to be. -/
inductive Mark where
  /-- a token of the expression -/
  | own (t : Token)
  | sign (kind : TokenKind) (text : String)
  /-- the sign of a strict call, directly behind the name -/
  | strict (name : Token)

namespace Mark

def op (symbol : String) : Mark := sign .operator symbol

def br (symbol : String) : Mark := sign .bracket symbol

def Shows : Mark → Token → Prop
  | own t, u => u = t
  | sign kind text, u => u.kind = kind ∧ u.text = text
  | strict name, u => u.isOperator "!" = true ∧ u.position.offset = name.endOffset

/-- Some token that shows the mark. -/
def token : Mark → Token
  | own t => t
  | sign kind text => ⟨kind, text, .nowhere⟩
  | strict name => ⟨.operator, "!", { Position.nowhere with offset := name.endOffset }⟩

theorem shows_token (m : Mark) : m.Shows m.token := by
  cases m <;> simp [Shows, token, Token.isOperator]

end Mark

theorem operator_of_shows {t : Token} {s : String} (h : (Mark.op s).Shows t) : t.isOperator s = true := by
  simp [Token.isOperator, h.1, h.2]

theorem bracket_of_shows {t : Token} {s : String} (h : (Mark.br s).Shows t) : t.isBracket s = true := by
  simp [Token.isBracket, h.1, h.2]

/-- The tokens show the marks, one by one. -/
abbrev Spells (ms : List Mark) (ts : List Token) : Prop := List.Forall₂ Mark.Shows ms ts

namespace Spells

theorem tokens (ms : List Mark) : Spells ms (ms.map Mark.token) := by
  induction ms with
  | nil => exact .nil
  | cons m ms ih => exact .cons m.shows_token ih

theorem append_iff {ms ns : List Mark} {ts : List Token} :
    Spells (ms ++ ns) ts ↔ ∃ us vs, ts = us ++ vs ∧ Spells ms us ∧ Spells ns vs := by
  constructor
  · intro h
    refine ⟨ts.take ms.length, ts.drop ms.length, (List.take_append_drop _ _).symm, ?_, ?_⟩
    · simpa using List.forall₂_take ms.length h
    · simpa using List.forall₂_drop ms.length h
  · rintro ⟨us, vs, rfl, hu, hv⟩
    exact List.rel_append hu hv

theorem cons_iff {m : Mark} {ms : List Mark} {ts : List Token} :
    Spells (m :: ms) ts ↔ ∃ t us, ts = t :: us ∧ m.Shows t ∧ Spells ms us := by
  constructor
  · intro h
    cases h with
    | cons ht hu => exact ⟨_, _, rfl, ht, hu⟩
  · rintro ⟨t, us, rfl, ht, hu⟩
    exact .cons ht hu

theorem singleton_iff {m : Mark} {ts : List Token} :
    Spells [m] ts ↔ ∃ t, ts = [t] ∧ m.Shows t := by
  rw [cons_iff]
  constructor
  · rintro ⟨t, us, rfl, ht, hu⟩
    cases hu
    exact ⟨t, rfl, ht⟩
  · rintro ⟨t, rfl, ht⟩
    exact ⟨t, [], rfl, ht, .nil⟩

/-- A text of marks that stand one after the other behind a symbol, cut before each of the symbols. -/
theorem flatMap {α : Type} {f : α → List Mark} {symbol : String} {as : List α} {ts : List Token}
    (h : Spells ((as.map f).flatMap (.op symbol :: ·)) ts) :
    ∃ pieces : List (List Token × α), ts = pieces.flatMap Prod.fst ∧ as = pieces.map Prod.snd ∧
      ∀ p ∈ pieces, p.1.length ≤ ts.length ∧
        ∃ s us, p.1 = s :: us ∧ s.isOperator symbol = true ∧ Spells (f p.2) us := by
  induction as generalizing ts with
  | nil =>
    cases h
    exact ⟨[], rfl, rfl, fun p hp => by simp at hp⟩
  | cons a as ih =>
    rw [List.map_cons, List.flatMap_cons] at h
    obtain ⟨us, vs, rfl, hu, hv⟩ := append_iff.mp h
    obtain ⟨s, ws, rfl, ⟨hk, ht⟩, hws⟩ := cons_iff.mp hu
    obtain ⟨pieces, rfl, rfl, hpieces⟩ := ih hv
    refine ⟨(s :: ws, a) :: pieces, by simp, rfl, fun p hp => ?_⟩
    rcases List.mem_cons.mp hp with rfl | hp
    · exact ⟨by simp, s, ws, rfl, by simp [Token.isOperator, hk, ht], hws⟩
    · obtain ⟨hlen, hp⟩ := hpieces p hp
      exact ⟨by simp only [List.length_append]; omega, hp⟩

end Spells

/-- Marks between parentheses, if there have to be any. -/
def enclosed (isOpen : Bool) (ms : List Mark) : List Mark :=
  if isOpen then .br "(" :: ms ++ [.br ")"] else ms

/-- Pieces with a symbol between one and the next. -/
def separated (symbol : String) : List (List Mark) → List Mark
  | [] => []
  | piece :: pieces => piece ++ pieces.flatMap (.op symbol :: ·)

/-- A call from the marks of its arguments. -/
def callMarks (name : Token) (isStrict : Bool) (args : List (List Mark)) : List Mark :=
  .own name :: (if isStrict then [.strict name] else []) ++ .br "(" :: separated "," args ++ [.br ")"]

namespace Expr

/-- Whether an expression needs parentheses inside another one. -/
def isOpen : Expr → Bool
  | binary _ _ _ | unary _ _ | compare _ _ | lambda _ _ => true
  | _ => false

mutual

/-- An expression written in full, without parentheses around the whole. -/
def marks : Expr → List Mark
  | scalar _ token => [.own token]
  | ident name => [.own name]
  | binary op left right =>
    enclosed left.isOpen left.marks ++ .op op.symbol :: enclosed right.isOpen right.marks
  | unary op operand => .op op.symbol :: enclosed operand.isOpen operand.marks
  | compare op operand => .op op.symbol :: enclosed operand.isOpen operand.marks
  | range opening lower upper closing =>
    .own opening :: enclosed lower.isOpen lower.marks ++
      .op "," :: enclosed upper.isOpen upper.marks ++ [.own closing]
  | arrow stages => separated "->" (stageMarks stages)
  | call ⟨name, strict, args⟩ => callMarks name strict (argumentMarks args)
  | chain calls => separated "." (chainMarks calls)
  | lambda params body =>
    .br "(" :: separated "," (params.map fun p => [.own p]) ++
      .br ")" :: .op "->" :: enclosed body.isOpen body.marks

def argumentMarks : List Expr → List (List Mark)
  | [] => []
  | e :: es => enclosed e.isOpen e.marks :: argumentMarks es

def stageMarks : List (Stage Expr) → List (List Mark)
  | [] => []
  | ⟨opening, body⟩ :: stages =>
    (.own opening :: enclosed body.isOpen body.marks ++ [.br "\x7d"]) :: stageMarks stages

def chainMarks : List (Call Expr) → List (List Mark)
  | [] => []
  | ⟨name, strict, args⟩ :: calls => callMarks name strict (argumentMarks args) :: chainMarks calls

end

/-- An expression as it stands inside another one. -/
def operandMarks (e : Expr) : List Mark := enclosed e.isOpen e.marks

/-- An expression that is written in full and stands alone. -/
def writtenMarks (e : Expr) : List Mark := enclosed true e.marks

mutual

/-- Whether the tokens of an expression spell what it says; `bounded` holds inside range bounds and
compare operands. -/
def Writable : Expr → (bounded : Bool) → Prop
  | scalar value token, _ => token.isScalar = true ∧ Parse.literalOf token = .ok value
  | ident name, _ => name.isName = true
  | binary op left right, bounded =>
    (bounded = true → op.isArithmetic = true) ∧ left.Writable bounded ∧ right.Writable bounded
  | unary _ operand, bounded => operand.Writable bounded
  | compare _ operand, _ => operand.Writable true
  | range opening lower upper closing, _ =>
    (opening.isBracket "(" = true ∨ opening.isBracket "[" = true) ∧ lower.Writable true ∧
      upper.Writable true ∧ (closing.isBracket ")" = true ∨ closing.isBracket "]" = true)
  | arrow stages, _ => stages ≠ [] ∧ StagesWritable stages
  | call ⟨name, _, args⟩, _ => name.isName = true ∧ ArgumentsWritable args
  | chain calls, _ => 2 ≤ calls.length ∧ CallsWritable calls
  | lambda params body, _ => (∀ p ∈ params, p.isName = true) ∧ body.Writable false

def ArgumentsWritable : List Expr → Prop
  | [] => True
  | e :: es => e.Writable false ∧ ArgumentsWritable es

def StagesWritable : List (Stage Expr) → Prop
  | [] => True
  | ⟨opening, body⟩ :: stages =>
    opening.isBracket "\x7b" = true ∧ body.Writable false ∧ StagesWritable stages

def CallsWritable : List (Call Expr) → Prop
  | [] => True
  | ⟨name, _, args⟩ :: calls =>
    (name.isName = true ∧ ArgumentsWritable args) ∧ CallsWritable calls

end

@[simp] theorem argumentMarks_eq (es : List Expr) : argumentMarks es = es.map operandMarks := by
  induction es with
  | nil => rfl
  | cons e es ih => rw [argumentMarks, ih]; rfl

/-- A stage with its brackets. -/
def bracedMarks (s : Stage Expr) : List Mark := .own s.opening :: s.body.operandMarks ++ [.br "\x7d"]

@[simp] theorem stageMarks_eq (stages : List (Stage Expr)) :
    stageMarks stages = stages.map bracedMarks := by
  induction stages with
  | nil => rfl
  | cons s stages ih => rw [stageMarks, ih]; rfl

/-- A call with its arguments. -/
def calledMarks (c : Call Expr) : List Mark := callMarks c.name c.strict (c.args.map operandMarks)

@[simp] theorem chainMarks_eq (calls : List (Call Expr)) :
    chainMarks calls = calls.map calledMarks := by
  induction calls with
  | nil => rfl
  | cons c calls ih => rw [chainMarks, ih, argumentMarks_eq]; rfl

theorem marks_call (c : Call Expr) : (call c).marks = calledMarks c := by
  rw [marks, argumentMarks_eq]
  rfl

theorem operandMarks_of_open {e : Expr} (h : e.isOpen = true) :
    e.operandMarks = .br "(" :: e.marks ++ [.br ")"] := by
  rw [operandMarks, h, enclosed, if_pos rfl]

theorem operandMarks_call (c : Call Expr) : (call c).operandMarks = calledMarks c := marks_call c

theorem operandMarks_chain (c : Call Expr) (calls : List (Call Expr)) :
    (chain (c :: calls)).operandMarks =
      calledMarks c ++ (calls.map calledMarks).flatMap (.op "." :: ·) := by
  change (chain (c :: calls)).marks = _
  rw [marks, chainMarks_eq]
  rfl

theorem operandMarks_arrow (s : Stage Expr) (stages : List (Stage Expr)) :
    (arrow (s :: stages)).operandMarks =
      bracedMarks s ++ (stages.map bracedMarks).flatMap (.op "->" :: ·) := by
  change (arrow (s :: stages)).marks = _
  rw [marks, stageMarks_eq]
  rfl

theorem operandMarks_range (opening : Token) (lower upper : Expr) (closing : Token) :
    (range opening lower upper closing).operandMarks =
      .own opening :: lower.operandMarks ++ .op "," :: upper.operandMarks ++ [.own closing] := by
  change (range opening lower upper closing).marks = _
  rw [marks]
  rfl

theorem argumentsWritable_iff {es : List Expr} :
    ArgumentsWritable es ↔ ∀ e ∈ es, e.Writable false := by
  induction es with
  | nil => simp [ArgumentsWritable]
  | cons e es ih => simp [ArgumentsWritable, ih]

theorem stagesWritable_iff {stages : List (Stage Expr)} :
    StagesWritable stages ↔
      ∀ s ∈ stages, s.opening.isBracket "\x7b" = true ∧ s.body.Writable false := by
  induction stages with
  | nil => simp [StagesWritable]
  | cons s stages ih => simp [StagesWritable, ih, and_assoc]

theorem callsWritable_iff {calls : List (Call Expr)} :
    CallsWritable calls ↔
      ∀ c ∈ calls, c.name.isName = true ∧ ∀ e ∈ c.args, e.Writable false := by
  induction calls with
  | nil => simp [CallsWritable]
  | cons c calls ih => simp [CallsWritable, ih, argumentsWritable_iff]

end Expr

end EventRules
