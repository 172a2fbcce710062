import EventRules.Proofs.Rule.Induction
import EventRules.Proofs.Rule.Rendering

/-!
# Lookaheads over expressions written in full

The parser guesses from the tokens ahead whether a parenthesis begins an anonymous function or a
range, and whether a `<` begins the shorthand of an arrow. On the text of an expression written in full
each guess is right: the commas inside brackets are balanced away (`Neutral`), the beginning of a text is
no parameter list (`NoParameters`), and a compare operand is no list of values.
-/

namespace EventRules
set_option autoImplicit false

open Token

/-! ### Brackets and commas -/

/-- Tokens that leave the count of brackets and commas as it is, inside `depth` brackets or more. -/
def Balanced (depth : Nat) (ts : List Token) : Prop :=
  ∀ d commas rest, depth ≤ d →
    endsWithOneComma (ts ++ rest) d commas = endsWithOneComma rest d commas

namespace Balanced

variable {k l : Nat} {ts us : List Token} {t opening closing : Token}

theorem mono (h : Balanced k ts) (hkl : k ≤ l) : Balanced l ts :=
  fun d commas rest hd => h d commas rest (Nat.le_trans hkl hd)

theorem nil (k : Nat) : Balanced k [] := fun _ _ _ _ => rfl

theorem append (ht : Balanced k ts) (hu : Balanced k us) : Balanced k (ts ++ us) := by
  intro d commas rest hd
  rw [List.append_assoc, ht d commas _ hd, hu d commas rest hd]

theorem cons (ht : Balanced k [t]) (hts : Balanced k ts) : Balanced k (t :: ts) := ht.append hts

theorem plain (h : t.isScalar = true ∨ t.isName = true) (k : Nat) : Balanced k [t] := by
  intro d commas rest _
  rw [List.singleton_append, endsWithOneComma]
  rcases h with h | h
  · cases hk : t.kind <;> simp [Token.isScalar, hk] at h ⊢
  · have hk : t.kind = .name := by simpa [Token.isName] using h
    simp [hk]

/-- A comma counts directly inside the group only. -/
theorem operator (hk : t.kind = .operator) (h : t.text = "," → 2 ≤ k) : Balanced k [t] := by
  intro d commas rest hd
  have hcount : ¬ (d = 1 ∧ t.text = ",") := by
    rintro ⟨rfl, ht⟩
    have := h ht
    omega
  rw [List.singleton_append, endsWithOneComma]
  simp [hk, hcount]

theorem group (hk : 1 ≤ k) (ho : opening.kind = .bracket ∧ opening.opensGroup = true)
    (hts : Balanced (k + 1) ts) (hc : closing.kind = .bracket ∧ closing.opensGroup = false) :
    Balanced k (opening :: ts ++ [closing]) := by
  intro d commas rest hd
  have hd1 : ¬ d + 1 ≤ 1 := by omega
  rw [List.cons_append, List.cons_append, endsWithOneComma, ho.1]
  simp only [ho.2, if_true]
  rw [List.append_assoc, hts _ _ _ (by omega), List.singleton_append, endsWithOneComma, hc.1]
  simp [hc.2, hd1]

/-- A group without a comma of its own is no range. -/
theorem starts_no_range (ho : opening.kind = .bracket ∧ opening.opensGroup = true)
    (hts : Balanced 1 ts) (hc : closing.kind = .bracket ∧ closing.opensGroup = false)
    (rest : List Token) : startsRange (opening :: ts ++ closing :: rest) = false := by
  rw [startsRange, List.cons_append, endsWithOneComma, ho.1]
  simp only [ho.2, if_true]
  rw [hts _ _ _ (Nat.le_refl 1), endsWithOneComma, hc.1]
  simp [hc.2]

/-- A group with one comma of its own is a range. -/
protected theorem startsRange {comma : Token} (ho : opening.kind = .bracket ∧ opening.opensGroup = true)
    (hts : Balanced 1 ts) (hcomma : comma.isOperator "," = true) (hus : Balanced 1 us)
    (hc : closing.kind = .bracket ∧ closing.opensGroup = false) (rest : List Token) :
    startsRange (opening :: ts ++ comma :: us ++ closing :: rest) = true := by
  obtain ⟨hmk, hmt⟩ := operator_of_isOperator hcomma
  rw [startsRange, List.append_assoc, List.cons_append, endsWithOneComma, ho.1]
  simp only [ho.2, if_true]
  rw [List.cons_append, hts _ _ _ (Nat.le_refl 1), endsWithOneComma, hmk]
  simp only [hmt]
  rw [hus _ _ _ (Nat.le_refl 1), endsWithOneComma, hc.1]
  simp [hc.2]

end Balanced

/-- A text that leaves the count of brackets and commas as it is, inside `depth` brackets or more. -/
def Neutral (depth : Nat) (ms : List Mark) : Prop :=
  ∀ ts, Spells ms ts → ∀ d commas rest, depth ≤ d →
    endsWithOneComma (ts ++ rest) d commas = endsWithOneComma rest d commas

def Mark.Opens (m : Mark) : Prop := ∀ t, m.Shows t → t.kind = .bracket ∧ t.opensGroup = true

def Mark.Closes (m : Mark) : Prop := ∀ t, m.Shows t → t.kind = .bracket ∧ t.opensGroup = false

theorem opensGroup_of_isBracket {t : Token} {s : String} (h : t.isBracket s = true)
    (hs : s = "(" ∨ s = "[" ∨ s = "\x7b") : t.kind = .bracket ∧ t.opensGroup = true := by
  obtain ⟨hk, ht⟩ := bracket_of_isBracket h
  refine ⟨hk, ?_⟩
  rcases hs with rfl | rfl | rfl <;> simp [opensGroup, ht]

theorem closes_group {t : Token} {s : String} (h : t.isBracket s = true)
    (hs : s = ")" ∨ s = "]" ∨ s = "\x7d") : t.kind = .bracket ∧ t.opensGroup = false := by
  obtain ⟨hk, ht⟩ := bracket_of_isBracket h
  refine ⟨hk, ?_⟩
  rcases hs with rfl | rfl | rfl <;> simp [opensGroup, ht]

theorem br_opens {s : String} (h : s = "(" ∨ s = "[" ∨ s = "\x7b") : (Mark.br s).Opens :=
  fun _ ht => opensGroup_of_isBracket (bracket_of_shows ht) h

theorem br_closes {s : String} (h : s = ")" ∨ s = "]" ∨ s = "\x7d") : (Mark.br s).Closes :=
  fun _ ht => closes_group (bracket_of_shows ht) h

theorem own_opens {o : Token} {s : String} (h : o.isBracket s = true)
    (hs : s = "(" ∨ s = "[" ∨ s = "\x7b") : (Mark.own o).Opens := by
  rintro t rfl
  exact opensGroup_of_isBracket h hs

theorem own_closes {c : Token} {s : String} (h : c.isBracket s = true)
    (hs : s = ")" ∨ s = "]" ∨ s = "\x7d") : (Mark.own c).Closes := by
  rintro t rfl
  exact closes_group h hs

namespace Neutral

theorem balanced {k : Nat} {ms : List Mark} (h : Neutral k ms) {ts : List Token} (hts : Spells ms ts) :
    Balanced k ts := h ts hts

theorem mono {k l : Nat} {ms : List Mark} (h : Neutral k ms) (hkl : k ≤ l) : Neutral l ms :=
  fun _ hts => (h.balanced hts).mono hkl

theorem nil (k : Nat) : Neutral k [] := by
  intro ts hts
  cases hts
  exact Balanced.nil k

theorem append {k : Nat} {ms ns : List Mark} (hm : Neutral k ms) (hn : Neutral k ns) :
    Neutral k (ms ++ ns) := by
  intro ts hts
  obtain ⟨us, vs, rfl, hu, hv⟩ := Spells.append_iff.mp hts
  exact (hm.balanced hu).append (hn.balanced hv)

theorem cons {k : Nat} {m : Mark} {ms : List Mark} (hm : Neutral k [m]) (hms : Neutral k ms) :
    Neutral k (m :: ms) := append hm hms

theorem own {t : Token} (h : t.isScalar = true ∨ t.isName = true) (k : Nat) : Neutral k [.own t] := by
  intro ts hts
  obtain ⟨u, rfl, rfl⟩ := Spells.singleton_iff.mp hts
  exact Balanced.plain h k

/-- A comma counts directly inside the group only. -/
theorem op {s : String} {k : Nat} (h : s = "," → 2 ≤ k) : Neutral k [.op s] := by
  intro ts hts
  obtain ⟨u, rfl, hk, ht⟩ := Spells.singleton_iff.mp hts
  exact Balanced.operator hk fun hu => h (ht.symm.trans hu)

theorem strict (name : Token) (k : Nat) : Neutral k [.strict name] := by
  intro ts hts
  obtain ⟨u, rfl, hu, _⟩ := Spells.singleton_iff.mp hts
  obtain ⟨hk, ht⟩ := operator_of_isOperator hu
  exact Balanced.operator hk fun h => by rw [ht] at h; exact absurd h (by decide)

theorem group {k : Nat} {opening closing : Mark} {ms : List Mark} (hk : 1 ≤ k)
    (ho : opening.Opens) (hm : Neutral (k + 1) ms) (hc : closing.Closes) :
    Neutral k (opening :: ms ++ [closing]) := by
  intro ts hts
  rw [List.cons_append] at hts
  obtain ⟨o, us, rfl, ho', hu⟩ := Spells.cons_iff.mp hts
  obtain ⟨vs, ws, rfl, hv, hw⟩ := Spells.append_iff.mp hu
  obtain ⟨c, rfl, hc'⟩ := Spells.singleton_iff.mp hw
  exact Balanced.group hk (ho o ho') (hm.balanced hv) (hc c hc')

theorem flatMap {k : Nat} {symbol : String} {pieces : List (List Mark)}
    (hs : Neutral k [.op symbol]) (h : ∀ piece ∈ pieces, Neutral k piece) :
    Neutral k (pieces.flatMap (.op symbol :: ·)) := by
  induction pieces with
  | nil => exact nil k
  | cons piece pieces ih =>
    rw [List.flatMap_cons]
    have hp := h piece List.mem_cons_self
    exact append (cons hs hp) (ih fun p hp => h p (List.mem_cons_of_mem piece hp))

theorem separated {k : Nat} {symbol : String} {pieces : List (List Mark)}
    (hs : Neutral k [.op symbol]) (h : ∀ piece ∈ pieces, Neutral k piece) :
    Neutral k (separated symbol pieces) := by
  cases pieces with
  | nil => exact nil k
  | cons piece pieces =>
    have hp := h piece List.mem_cons_self
    exact append hp (flatMap hs fun p hp => h p (List.mem_cons_of_mem piece hp))

theorem enclosed {isOpen : Bool} {ms : List Mark} (h : Neutral 1 ms) : Neutral 1 (enclosed isOpen ms) := by
  cases isOpen with
  | false => exact h
  | true =>
    exact group (Nat.le_refl 1) (br_opens (Or.inl rfl)) (h.mono (by omega)) (br_closes (Or.inl rfl))

protected theorem callMarks {name : Token} {isStrict : Bool} {args : List (List Mark)}
    (hname : name.isName = true) (h : ∀ ms ∈ args, Neutral 1 ms) :
    Neutral 1 (callMarks name isStrict args) := by
  have hargs : Neutral 2 (EventRules.separated "," args) :=
    separated (op fun _ => Nat.le_refl 2) fun ms hm => (h ms hm).mono (by omega)
  have hgroup : Neutral 1 (.br "(" :: EventRules.separated "," args ++ [.br ")"]) :=
    group (Nat.le_refl 1) (br_opens (Or.inl rfl)) hargs (br_closes (Or.inl rfl))
  have hmark : Neutral 1 (if isStrict then [.strict name] else []) := by
    cases isStrict with
    | false => exact nil 1
    | true => exact strict name 1
  have hhead : Neutral 1 (.own name :: if isStrict then [.strict name] else []) :=
    cons (own (Or.inr hname) 1) hmark
  have h := append hhead hgroup
  simpa [callMarks] using h

end Neutral

theorem called_neutral {c : Call Expr} (hname : c.name.isName = true)
    (h : ∀ e ∈ c.args, Neutral 1 e.marks) :
    Neutral 1 (callMarks c.name c.strict (c.args.map Expr.operandMarks)) := by
  refine .callMarks hname fun ms hms => ?_
  obtain ⟨e, he, rfl⟩ := List.mem_map.mp hms
  exact .enclosed (h e he)

theorem marks_neutral (e : Expr) : ∀ bounded, e.Writable bounded → Neutral 1 e.marks := by
  induction e using Expr.induct with
  | scalar value token =>
    rintro bounded ⟨ht, -⟩
    exact .own (Or.inl ht) 1
  | ident name =>
    intro bounded h
    exact .own (Or.inr h) 1
  | binary op left right ihl ihr =>
    rintro bounded ⟨-, hl, hr⟩
    have hop : Neutral 1 [.op op.symbol] := by
      refine .op fun h => absurd h ?_
      cases op with
      | compare c => cases c <;> decide
      | _ => decide
    exact .append (.enclosed (ihl bounded hl)) (.cons hop (.enclosed (ihr bounded hr)))
  | unary op operand ih =>
    intro bounded h
    have hop : Neutral 1 [.op op.symbol] := .op fun h => absurd h (by cases op <;> decide)
    exact .cons hop (.enclosed (ih bounded h))
  | compare op operand ih =>
    intro bounded h
    have hop : Neutral 1 [.op op.symbol] := .op fun h => absurd h (by cases op <;> decide)
    exact .cons hop (.enclosed (ih true h))
  | range opening lower upper closing ihl ihu =>
    rintro bounded ⟨ho, hl, hu, hc⟩
    -- the comma between the bounds counts, but only one group further in
    have hcomma : Neutral 2 [.op ","] := .op fun _ => Nat.le_refl 2
    have hbounds : Neutral 2 (lower.operandMarks ++ .op "," :: upper.operandMarks) :=
      .append ((Neutral.enclosed (ihl true hl)).mono (by omega))
        (.cons hcomma ((Neutral.enclosed (ihu true hu)).mono (by omega)))
    have hopens : (Mark.own opening).Opens := by
      rcases ho with ho | ho
      · exact own_opens ho (Or.inl rfl)
      · exact own_opens ho (Or.inr (Or.inl rfl))
    have hcloses : (Mark.own closing).Closes := by
      rcases hc with hc | hc
      · exact own_closes hc (Or.inl rfl)
      · exact own_closes hc (Or.inr (Or.inl rfl))
    have h := Neutral.group (Nat.le_refl 1) hopens hbounds hcloses
    simpa [Expr.marks, Expr.operandMarks] using h
  | arrow stages ih =>
    rintro bounded ⟨-, hs⟩
    have hs := Expr.stagesWritable_iff.mp hs
    rw [Expr.marks, Expr.stageMarks_eq]
    refine .separated (.op fun h => absurd h (by decide)) ?_
    intro ms hms
    obtain ⟨s, hmem, rfl⟩ := List.mem_map.mp hms
    obtain ⟨ho, hb⟩ := hs s hmem
    exact .group (Nat.le_refl 1) (own_opens ho (Or.inr (Or.inr rfl)))
      ((Neutral.enclosed (ih s hmem false hb)).mono (by omega)) (br_closes (Or.inr (Or.inr rfl)))
  | call c ih =>
    rintro bounded ⟨hname, hargs⟩
    have hargs := Expr.argumentsWritable_iff.mp hargs
    rw [Expr.marks_call]
    exact called_neutral hname fun e he => ih e he false (hargs e he)
  | chain calls ih =>
    rintro bounded ⟨-, hc⟩
    have hc := Expr.callsWritable_iff.mp hc
    rw [Expr.marks, Expr.chainMarks_eq]
    refine .separated (.op fun h => absurd h (by decide)) ?_
    intro ms hms
    obtain ⟨c, hmem, rfl⟩ := List.mem_map.mp hms
    obtain ⟨hname, hargs⟩ := hc c hmem
    exact called_neutral hname fun e he => ih c hmem e he false (hargs e he)
  | lambda params body ih =>
    rintro bounded ⟨hparams, hbody⟩
    have hnames : Neutral 2 (separated "," (params.map fun p => [.own p])) := by
      refine .separated (.op fun _ => Nat.le_refl 2) fun ms hms => ?_
      obtain ⟨p, hp, rfl⟩ := List.mem_map.mp hms
      exact .own (Or.inr (hparams p hp)) 2
    have hhead : Neutral 1 (.br "(" :: separated "," (params.map fun p => [.own p]) ++ [.br ")"]) :=
      .group (Nat.le_refl 1) (br_opens (Or.inl rfl)) hnames (br_closes (Or.inl rfl))
    have harrow : Neutral 1 [.op "->"] := .op fun h => absurd h (by decide)
    have hopen : Neutral 1 (enclosed body.isOpen body.marks) := .enclosed (ih false hbody)
    have h := Neutral.append hhead (.cons harrow hopen)
    simpa [Expr.marks] using h

/-- One expression in parentheses has no comma of its own. -/
theorem startsRange_parenthesised {e : Expr} {bounded : Bool} (he : e.Writable bounded)
    {ts : List Token} (hts : Spells e.marks ts) {opening closing : Token}
    (ho : opening.isBracket "(" = true) (hc : closing.isBracket ")" = true) (rest : List Token) :
    startsRange (opening :: ts ++ closing :: rest) = false :=
  Balanced.starts_no_range (opensGroup_of_isBracket ho (Or.inl rfl)) ((marks_neutral e bounded he).balanced hts)
    (closes_group hc (Or.inl rfl)) rest

/-- Two bounds have one comma between them. -/
theorem startsRange_bounds {lower upper : Expr} (hl : lower.Writable true) (hu : upper.Writable true)
    {ls us : List Token} (hls : Spells lower.operandMarks ls) (hus : Spells upper.operandMarks us)
    {opening comma closing : Token} (ho : opening.isBracket "(" = true)
    (hcomma : comma.isOperator "," = true)
    (hc : closing.isBracket ")" = true ∨ closing.isBracket "]" = true) (rest : List Token) :
    startsRange (opening :: ls ++ comma :: us ++ closing :: rest) = true := by
  have hlower : Neutral 1 lower.operandMarks := .enclosed (marks_neutral lower true hl)
  have hupper : Neutral 1 upper.operandMarks := .enclosed (marks_neutral upper true hu)
  have hcloses : closing.kind = .bracket ∧ closing.opensGroup = false := by
    rcases hc with hc | hc
    · exact closes_group hc (Or.inl rfl)
    · exact closes_group hc (Or.inr (Or.inl rfl))
  exact Balanced.startsRange (opensGroup_of_isBracket ho (Or.inl rfl)) (hlower.balanced hls) hcomma
    (hupper.balanced hus) hcloses rest

/-! ### Beginnings -/

/-- A token that an operand can begin with, and the rest of the operand. -/
def BeginsOperand (t : Token) (us : List Token) : Prop :=
  t.isScalar = true ∧ us = [] ∨ t.isName = true ∨ t.kind = .bracket ∧ t.opensGroup = true

theorem operand_begins {e : Expr} {bounded : Bool} (he : e.Writable bounded) {ts : List Token}
    (hts : Spells e.operandMarks ts) : ∃ t us, ts = t :: us ∧ BeginsOperand t us := by
  have hgroup : ∀ {m : Mark} {ms : List Mark}, m.Opens → Spells (m :: ms) ts →
      ∃ t us, ts = t :: us ∧ BeginsOperand t us := by
    intro m ms hm h
    obtain ⟨t, us, rfl, ht, -⟩ := Spells.cons_iff.mp h
    exact ⟨t, us, rfl, Or.inr (Or.inr (hm t ht))⟩
  have hname : ∀ {name : Token} {ms : List Mark}, name.isName = true → Spells (.own name :: ms) ts →
      ∃ t us, ts = t :: us ∧ BeginsOperand t us := by
    intro name ms hm h
    obtain ⟨t, us, rfl, rfl, -⟩ := Spells.cons_iff.mp h
    exact ⟨t, us, rfl, Or.inr (Or.inl hm)⟩
  have hparen : (Mark.br "(").Opens := br_opens (Or.inl rfl)
  cases e with
  | scalar value token =>
    obtain ⟨t, rfl, rfl⟩ := Spells.singleton_iff.mp hts
    exact ⟨t, [], rfl, Or.inl ⟨he.1, rfl⟩⟩
  | ident name =>
    obtain ⟨t, rfl, rfl⟩ := Spells.singleton_iff.mp hts
    exact ⟨t, [], rfl, Or.inr (Or.inl he)⟩
  | binary op left right => exact hgroup hparen hts
  | unary op operand => exact hgroup hparen hts
  | compare op operand => exact hgroup hparen hts
  | lambda params body => exact hgroup hparen hts
  | range opening lower upper closing =>
    obtain ⟨ho, -⟩ := he
    rcases ho with ho | ho
    · exact hgroup (own_opens ho (Or.inl rfl)) hts
    · exact hgroup (own_opens ho (Or.inr (Or.inl rfl))) hts
  | arrow stages =>
    obtain ⟨s, stages, rfl⟩ := List.exists_cons_of_ne_nil he.1
    obtain ⟨ho, -⟩ := Expr.stagesWritable_iff.mp he.2 s List.mem_cons_self
    rw [Expr.operandMarks_arrow] at hts
    exact hgroup (own_opens ho (Or.inr (Or.inr rfl))) hts
  | call c =>
    rw [Expr.operandMarks_call] at hts
    exact hname he.1 hts
  | chain calls =>
    obtain ⟨c, calls, rfl⟩ := List.exists_cons_of_length_pos (Nat.lt_of_lt_of_le Nat.zero_lt_two he.1)
    obtain ⟨hn, -⟩ := Expr.callsWritable_iff.mp he.2 c List.mem_cons_self
    rw [Expr.operandMarks_chain] at hts
    exact hname hn hts

theorem beginsOperand_kind {t : Token} {us : List Token} (h : BeginsOperand t us) :
    t.kind ≠ .operator ∧ t.kind ≠ .endOfInput ∧ t.isBracket ")" = false := by
  rcases h with ⟨h, -⟩ | h | ⟨hk, h⟩
  · cases hk : t.kind <;> simp [Token.isScalar, Token.isBracket, hk] at h ⊢
  · have hk : t.kind = .name := by simpa [Token.isName] using h
    simp [Token.isBracket, hk]
  · refine ⟨by simp [hk], by simp [hk], ?_⟩
    cases hb : t.isBracket ")" with
    | false => rfl
    | true =>
      obtain ⟨-, ht⟩ := bracket_of_isBracket hb
      simp [opensGroup, ht] at h

/-- Tokens that go on otherwise than a parameter list after its first name, and that do not close one. -/
def NoParameters (ts : List Token) : Prop :=
  ∃ t us, ts = t :: us ∧ t.isBracket ")" = false ∧
    (t.isName = true → ∀ u ∈ us.head?, u.isOperator "," = false ∧ u.isBracket ")" = false)

namespace NoParameters

theorem append {ts us : List Token} {u : Token} (h : NoParameters ts) (hc : u.isOperator "," = false)
    (hb : u.isBracket ")" = false) : NoParameters (ts ++ u :: us) := by
  obtain ⟨t, vs, rfl, ht, hn⟩ := h
  refine ⟨t, vs ++ u :: us, rfl, ht, fun hname v hv => ?_⟩
  cases vs with
  | nil =>
    obtain rfl : u = v := by simpa using hv
    exact ⟨hc, hb⟩
  | cons w ws => exact hn hname v (by simpa using hv)

theorem of_first {t : Token} {us : List Token} (ht : t.isBracket ")" = false)
    (hn : t.isName = false) : NoParameters (t :: us) :=
  ⟨t, us, rfl, ht, fun h => by simp [hn] at h⟩

theorem close_eq_none {t : Token} (ht : t.isBracket ")" = false) (ts : List Token) :
    Parse.lambdaHead?.close (t :: ts) = none := by
  cases ts <;> simp [Parse.lambdaHead?.close, ht]

/-- No parameter list with its arrow stands at the head of such tokens and a token behind them. -/
theorem params_eq_none {ts : List Token} (h : NoParameters ts) {u : Token} {rest : List Token}
    (hu : u.isOperator "," = false) (hrest : ∀ v ∈ rest.head?, v.isOperator "->" = false) :
    Parse.lambdaHead?.params (ts ++ u :: rest) = none := by
  obtain ⟨t, us, rfl, ht, hn⟩ := h
  have hclose : Parse.lambdaHead?.close (u :: rest) = none := by
    cases rest with
    | nil => rfl
    | cons v vs => simp [Parse.lambdaHead?.close, hrest v rfl]
  cases hname : t.isName with
  | false =>
    cases us <;> simp only [List.cons_append, List.nil_append, Parse.lambdaHead?.params, hname,
      Bool.false_eq_true, if_false, close_eq_none ht, Option.map_none]
  | true =>
    cases us with
    | nil =>
      simp only [List.cons_append, List.nil_append, Parse.lambdaHead?.params, hname, hu,
        Bool.false_eq_true, if_false, if_true, hclose, Option.map_none]
    | cons v vs =>
      obtain ⟨hcomma, hv⟩ := hn hname v rfl
      simp only [List.cons_append, Parse.lambdaHead?.params, hname, hcomma, Bool.false_eq_true,
        if_false, if_true, close_eq_none hv, Option.map_none]

end NoParameters

theorem callMarks_noParameters {name : Token} {isStrict : Bool} {args : List (List Mark)}
    {ms : List Mark} {ts : List Token} (hname : name.isName = true)
    (hts : Spells (callMarks name isStrict args ++ ms) ts) : NoParameters ts := by
  have hb : name.isBracket ")" = false := by
    have hk : name.kind = .name := by simpa [Token.isName] using hname
    simp [Token.isBracket, hk]
  cases isStrict with
  | false =>
    simp only [callMarks, Bool.false_eq_true, if_false, List.cons_append, List.append_assoc,
      List.nil_append] at hts
    obtain ⟨t, us, rfl, rfl, hus⟩ := Spells.cons_iff.mp hts
    obtain ⟨u, vs, rfl, ⟨hk, ht⟩, -⟩ := Spells.cons_iff.mp hus
    refine ⟨t, _, rfl, hb, fun _ v hv => ?_⟩
    obtain rfl : u = v := by simpa using hv
    exact ⟨not_operator_of_bracket hk _, by simp [Token.isBracket, ht]⟩
  | true =>
    simp only [callMarks, if_true, List.cons_append, List.append_assoc, List.nil_append] at hts
    obtain ⟨t, us, rfl, rfl, hus⟩ := Spells.cons_iff.mp hts
    obtain ⟨u, vs, rfl, ⟨hu, -⟩, -⟩ := Spells.cons_iff.mp hus
    obtain ⟨hk, ht⟩ := operator_of_isOperator hu
    refine ⟨t, _, rfl, hb, fun _ v hv => ?_⟩
    obtain rfl : u = v := by simpa using hv
    exact ⟨by simp [Token.isOperator, ht], not_bracket_of_operator hk _⟩

theorem opening_noParameters {m : Mark} {ms : List Mark} {ts : List Token} (hm : m.Opens)
    (hts : Spells (m :: ms) ts) : NoParameters ts := by
  obtain ⟨t, us, rfl, ht, -⟩ := Spells.cons_iff.mp hts
  have hbegin : BeginsOperand t us := Or.inr (Or.inr (hm t ht))
  exact .of_first (beginsOperand_kind hbegin).2.2 (by simp [Token.isName, (hm t ht).1])

theorem sole_noParameters {t : Token} (h : t.isBracket ")" = false) : NoParameters [t] :=
  ⟨t, [], rfl, h, fun _ u hu => by simp at hu⟩

theorem operand_noParameters {e : Expr} {bounded : Bool} (he : e.Writable bounded) {ts : List Token}
    (hts : Spells e.operandMarks ts) : NoParameters ts := by
  obtain ⟨t, us, rfl, hbegin⟩ := operand_begins he hts
  have hclose := (beginsOperand_kind hbegin).2.2
  have hparen : (Mark.br "(").Opens := br_opens (Or.inl rfl)
  cases e with
  | scalar value token =>
    obtain ⟨u, hu, -⟩ := Spells.singleton_iff.mp hts
    rw [hu]
    exact sole_noParameters (by cases hu; exact hclose)
  | ident name =>
    obtain ⟨u, hu, -⟩ := Spells.singleton_iff.mp hts
    rw [hu]
    exact sole_noParameters (by cases hu; exact hclose)
  | binary op left right => exact opening_noParameters hparen hts
  | unary op operand => exact opening_noParameters hparen hts
  | compare op operand => exact opening_noParameters hparen hts
  | lambda params body => exact opening_noParameters hparen hts
  | range opening lower upper closing =>
    rcases he.1 with ho | ho
    · exact opening_noParameters (own_opens ho (Or.inl rfl)) hts
    · exact opening_noParameters (own_opens ho (Or.inr (Or.inl rfl))) hts
  | arrow stages =>
    obtain ⟨s, stages, rfl⟩ := List.exists_cons_of_ne_nil he.1
    obtain ⟨ho, -⟩ := Expr.stagesWritable_iff.mp he.2 s List.mem_cons_self
    rw [Expr.operandMarks_arrow] at hts
    exact opening_noParameters (own_opens ho (Or.inr (Or.inr rfl))) hts
  | call c =>
    rw [Expr.operandMarks_call, Expr.calledMarks, ← List.append_nil (callMarks _ _ _)] at hts
    exact callMarks_noParameters he.1 hts
  | chain calls =>
    obtain ⟨c, calls, rfl⟩ := List.exists_cons_of_length_pos (Nat.lt_of_lt_of_le Nat.zero_lt_two he.1)
    obtain ⟨hn, -⟩ := Expr.callsWritable_iff.mp he.2 c List.mem_cons_self
    rw [Expr.operandMarks_chain] at hts
    exact callMarks_noParameters hn hts

/-- Inside its parentheses an expression is no parameter list either. -/
theorem marks_noParameters {e : Expr} {bounded : Bool} (he : e.Writable bounded) {ts : List Token}
    (hts : Spells e.marks ts) : NoParameters ts := by
  have hoperator : ∀ {s : String} {ms : List Mark}, Spells (.op s :: ms) ts → NoParameters ts := by
    intro s ms h
    obtain ⟨t, us, rfl, ⟨hk, -⟩, -⟩ := Spells.cons_iff.mp h
    exact .of_first (not_bracket_of_operator hk _) (by simp [Token.isName, hk])
  cases e with
  | binary op left right =>
    obtain ⟨us, vs, rfl, hus, hvs⟩ := Spells.append_iff.mp hts
    obtain ⟨t, ws, rfl, ⟨hk, ht⟩, -⟩ := Spells.cons_iff.mp hvs
    have hcomma : t.isOperator "," = false := by
      have hs : (op.symbol == ",") = false := by
        cases op with
        | compare c => cases c <;> decide
        | _ => decide
      simp [Token.isOperator, ht, hs]
    exact (operand_noParameters he.2.1 hus).append hcomma (not_bracket_of_operator hk _)
  | unary op operand => exact hoperator hts
  | compare op operand => exact hoperator hts
  | lambda params body => exact opening_noParameters (br_opens (Or.inl rfl)) hts
  | scalar value token => exact operand_noParameters he hts
  | ident name => exact operand_noParameters he hts
  | range opening lower upper closing => exact operand_noParameters he hts
  | arrow stages => exact operand_noParameters he hts
  | call c => exact operand_noParameters he hts
  | chain calls => exact operand_noParameters he hts

/-! ### What the parser makes of a beginning -/

/-- A token list whose first token, if there is one, is no arrow. -/
def NoArrow (ts : List Token) : Prop := ∀ t ∈ ts.head?, t.isOperator "->" = false

theorem lambdaHead_parenthesised {e : Expr} {bounded : Bool} (he : e.Writable bounded)
    {ts : List Token} (hts : Spells e.marks ts) {closing : Token} (hc : closing.isBracket ")" = true)
    (opening : Token) {rest : List Token} (hrest : NoArrow rest) :
    Parse.lambdaHead? (opening :: ts ++ closing :: rest) = none := by
  have hcomma := not_operator_of_bracket (bracket_of_isBracket hc).1 ","
  have h := (marks_noParameters he hts).params_eq_none hcomma hrest
  rw [List.cons_append, Parse.lambdaHead?, h, Option.map_none, ite_self]

/-- A lower bound that is a single name looks like a parameter; the upper bound is none. -/
theorem lambdaHead_bounds {ls us : List Token} (hls : NoParameters ls) (hus : NoParameters us)
    {comma closing : Token} (hcomma : comma.isOperator "," = true)
    (hc : closing.kind = .bracket) (opening : Token) {rest : List Token} (hrest : NoArrow rest) :
    Parse.lambdaHead? (opening :: ls ++ comma :: us ++ closing :: rest) = none := by
  have hupper := hus.params_eq_none (not_operator_of_bracket hc ",") hrest
  have hbounds : Parse.lambdaHead?.params (ls ++ comma :: (us ++ closing :: rest)) = none := by
    obtain ⟨t, vs, rfl, ht, hn⟩ := hls
    cases hname : t.isName with
    | false =>
      cases vs <;> simp only [List.cons_append, List.nil_append, Parse.lambdaHead?.params, hname,
        Bool.false_eq_true, if_false, NoParameters.close_eq_none ht, Option.map_none]
    | true =>
      cases vs with
      | nil =>
        simp only [List.cons_append, List.nil_append, Parse.lambdaHead?.params, hname, hcomma,
          if_true, hupper, Option.map_none]
      | cons v ws =>
        obtain ⟨hv, hb⟩ := hn hname v rfl
        simp only [List.cons_append, Parse.lambdaHead?.params, hname, hv, Bool.false_eq_true,
          if_false, if_true, NoParameters.close_eq_none hb, Option.map_none]
  rw [List.append_assoc, List.cons_append, List.cons_append, Parse.lambdaHead?, hbounds,
    Option.map_none, ite_self]

/-- The marks from the parameters of an anonymous function up to its arrow. -/
def parameterMarks (params : List Token) : List Mark :=
  separated "," (params.map fun p => [.own p]) ++ [.br ")", .op "->"]

theorem params_of_spelled {params : List Token} (hp : ∀ p ∈ params, p.isName = true)
    {ts : List Token} (hts : Spells (parameterMarks params) ts) (rest : List Token) :
    Parse.lambdaHead?.params (ts ++ rest) = some (params, ts.length) := by
  have hclose : ∀ {us : List Token}, Spells [.br ")", .op "->"] us → ∃ c a, us = [c, a] ∧
      c.isName = false ∧ c.isOperator "," = false ∧
        Parse.lambdaHead?.close (c :: a :: rest) = some 2 := by
    intro us hus
    obtain ⟨c, vs, rfl, ⟨hck, hct⟩, hvs⟩ := Spells.cons_iff.mp hus
    obtain ⟨a, rfl, hak, hat⟩ := Spells.singleton_iff.mp hvs
    refine ⟨c, a, rfl, by simp [Token.isName, hck], not_operator_of_bracket hck _, ?_⟩
    simp [Parse.lambdaHead?.close, Token.isBracket, Token.isOperator, hck, hct, hak, hat]
  cases params with
  | nil =>
    obtain ⟨c, a, rfl, hname, -, h⟩ := hclose hts
    simp [Parse.lambdaHead?.params, hname, h]
  | cons p ps =>
    -- each round of the lookahead passes a parameter and the comma behind it
    induction ps generalizing p ts with
    | nil =>
      obtain ⟨t, us, rfl, rfl, hus⟩ := Spells.cons_iff.mp hts
      obtain ⟨c, a, rfl, -, hcomma, h⟩ := hclose hus
      simp [Parse.lambdaHead?.params, hp, hcomma, h]
    | cons q qs ih =>
      obtain ⟨t, us, rfl, rfl, hus⟩ := Spells.cons_iff.mp hts
      obtain ⟨comma, vs, rfl, ⟨hk, ht⟩, hvs⟩ := Spells.cons_iff.mp hus
      have hnames : ∀ p ∈ q :: qs, p.isName = true := fun p h => hp p (List.mem_cons_of_mem t h)
      have h := ih q hnames hvs
      have hcomma : comma.isOperator "," = true := by simp [Token.isOperator, hk, ht]
      simp only [List.cons_append, Parse.lambdaHead?.params, hp t List.mem_cons_self, hcomma,
        if_true, h, Option.map_some, List.length_cons]

theorem lambdaHead_of_spelled {params : List Token} (hp : ∀ p ∈ params, p.isName = true)
    {ts : List Token} (hts : Spells (.br "(" :: parameterMarks params) ts) (rest : List Token) :
    Parse.lambdaHead? (ts ++ rest) = some (params, ts.length) := by
  obtain ⟨opening, us, rfl, ⟨hk, ht⟩, hus⟩ := Spells.cons_iff.mp hts
  have hopening : opening.isBracket "(" = true := by simp [Token.isBracket, hk, ht]
  rw [List.cons_append, Parse.lambdaHead?, if_pos hopening, params_of_spelled hp hus]
  rfl

/-- The operand of a comparison is no list of values: behind a literal the parenthesis closes. -/
theorem shorthandEnd_eq_none {t : Token} {us : List Token} (h : BeginsOperand t us) {closing : Token}
    (hc : closing.kind = .bracket) (op : Token) (rest : List Token) :
    shorthandEnd? (op :: t :: us ++ closing :: rest) = none := by
  have hvalues : shorthandValues? (t :: us ++ closing :: rest) = none := by
    rcases h with ⟨-, rfl⟩ | h | ⟨h, -⟩
    · simp [shorthandValues?, not_operator_of_bracket hc]
    · have hk : t.kind = .name := by simpa [Token.isName] using h
      cases us <;> simp [shorthandValues?, isShorthandValue, Token.isScalar, hk]
    · cases us <;> simp [shorthandValues?, isShorthandValue, Token.isScalar, h]
  rw [List.cons_append, shorthandEnd?, hvalues, ite_self]

end EventRules
