import EventRules.Proofs.Rule.Atoms
import EventRules.Proofs.Rule.Following
import EventRules.Proofs.Rule.Reading

/-!
# Steps over the tokens

What a step does to a parser is to pass tokens, some of them after a shorthand among them is expanded.
`Walks` says so of two steps at once that do the same where they begin, as the same construct does
with two ways to read what is nested in it. A loop over rounds that pass a token each does not use its
rounds up.
-/

namespace EventRules
set_option autoImplicit false

open Token Routine Parse Respelling

variable {α β : Type} {S : α → List Token → Prop} {T : β → List Token → Prop} {p q : Parser}
  {ts us : List Token} {d : Nat}

/-- Both steps do the same from `p`: they pass tokens, and an answer stands behind tokens that it
satisfies `S` with. -/
structure Walks (S : α → List Token → Prop) (m m' : Parse α) (p : Parser) : Prop where
  same : m'.run p = m.run p
  passes : ∃ ts, p.Reaches ts (m.run p).2 ∧ ∀ a, (m.run p).1 = .ok a → S a ts

namespace Walks

variable {m m' m₁ m₁' : Parse α}

theorem answer {a : α} (h : Walks S m m' p) (hrun : m.run p = (.ok a, q)) :
    ∃ ts, p.Reaches ts q ∧ S a ts := by
  obtain ⟨ts, hts, hanswer⟩ := h.passes
  rw [hrun] at hts hanswer
  exact ⟨ts, hts, hanswer a rfl⟩

theorem weaken {S' : α → List Token → Prop} (h : Walks S m m' p) (hS : ∀ a ts, S a ts → S' a ts) :
    Walks S' m m' p := by
  obtain ⟨ts, hts, hanswer⟩ := h.passes
  exact ⟨h.same, ts, hts, fun a ha => hS a ts (hanswer a ha)⟩

theorem congr (h : Walks S m₁ m₁' p) (hm : m.run p = m₁.run p) (hm' : m'.run p = m₁'.run p) :
    Walks S m m' p := by
  refine ⟨hm'.trans (h.same.trans hm.symm), ?_⟩
  rw [hm]
  exact h.passes

theorem pure {a : α} (h : S a []) : Walks S (Pure.pure a) (Pure.pure a) p := by
  refine ⟨rfl, [], .refl p, fun b hb => ?_⟩
  cases hb
  exact h

/-- Steps that fail at once. -/
theorem fail {e : ParseError} (h : m.run p = (.error e, p)) (h' : m'.run p = (.error e, p)) :
    Walks S m m' p := by
  refine ⟨h'.trans h.symm, [], ?_, fun a ha => ?_⟩
  · rw [h]
    exact .refl p
  · rw [h] at ha
    cases ha

protected theorem ofExcept (x : Except ParseError α) (h : ∀ a, S a []) : Walks S (ofExcept x) (ofExcept x) p :=
  ⟨rfl, [], .refl p, fun a _ => h a⟩

/-- A sequence. What is known of the tokens is passed on to the second part. -/
theorem bind {f f' : α → Parse β} (hm : Walks S m m' p)
    (hf : ∀ a q ts, p.Reaches ts q → S a ts → Walks (fun b us => T b (ts ++ us)) (f a) (f' a) q) :
    Walks T (m >>= f) (m' >>= f') p := by
  obtain ⟨ts, hts, hanswer⟩ := hm.passes
  have hagain := hm.same
  cases hrun : m.run p with
  | mk r q =>
    rw [hrun] at hts hanswer hagain
    cases r with
    | error e =>
      refine ⟨(run_bind_error hagain f').trans (run_bind_error hrun f).symm, ts, ?_, fun b hb => ?_⟩
      · rw [run_bind_error hrun]
        exact hts
      · rw [run_bind_error hrun] at hb
        cases hb
    | ok a =>
      obtain ⟨hsame, us, hus, hanswer'⟩ := hf a q ts hts (hanswer a rfl)
      refine ⟨?_, ts ++ us, ?_, ?_⟩
      · rw [run_bind_ok hagain, run_bind_ok hrun, hsame]
      · rw [run_bind_ok hrun]
        exact hts.trans hus
      · rw [run_bind_ok hrun]
        exact hanswer'

theorem map {g : α → β} (h : Walks (fun a ts => T (g a) ts) m m' p) : Walks T (g <$> m) (g <$> m') p := by
  have hbind : Walks T (m >>= fun a => Pure.pure (g a)) (m' >>= fun a => Pure.pure (g a)) p :=
    h.bind fun a q ts _ hts => pure ((List.append_nil ts).symm ▸ hts)
  exact hbind

protected theorem withTable {table : Precedence} (h : Walks S m m' { p with table }) :
    Walks S (withTable table m) (withTable table m') p := by
  have hrun : ∀ m : Parse α, (withTable table m).run p =
      ((m.run { p with table }).1, { (m.run { p with table }).2 with table := p.table }) := fun _ => rfl
  obtain ⟨ts, hts, hanswer⟩ := h.passes
  refine ⟨?_, ts, ?_, ?_⟩
  · rw [hrun, hrun, h.same]
  · rw [hrun]
    exact ⟨hts.passed, hts.last, rfl, hts.ahead⟩
  · rw [hrun]
    exact hanswer

theorem sees_bind {test : Token → Bool} {f f' : Bool → Parse α}
    (htrue : test p.current = true → Walks S (f true) (f' true) p)
    (hfalse : test p.current = false → Walks S (f false) (f' false) p) :
    Walks S (sees test >>= f) (sees test >>= f') p := by
  have hboth : Walks S (f (test p.current)) (f' (test p.current)) p := by
    cases hsees : test p.current with
    | true => exact htrue hsees
    | false => exact hfalse hsees
  exact hboth.congr rfl rfl

theorem current_bind {f f' : Token → Parse α} (h : Walks S (f p.current) (f' p.current) p) :
    Walks S (Parse.current >>= f) (Parse.current >>= f') p :=
  h.congr rfl rfl

theorem state_bind {f f' : Parser → Parse α} (h : Walks S (f p) (f' p) p) :
    Walks S (state >>= f) (state >>= f') p :=
  h.congr rfl rfl

/-! ### Tokens -/

theorem token {m : Parse Token} {test : Token → Bool} (hm : Takes m test) (hlast : p.last.isEnd = true)
    (hend : test p.current = true → p.current.isEnd = false) :
    Walks (fun t ts => t = p.current ∧ ts = [p.current] ∧ test p.current = true) m m p := by
  cases htest : test p.current with
  | false =>
    obtain ⟨e, he⟩ := hm.fails p htest
    exact fail he he
  | true =>
    have hrun := hm.takes p htest
    refine ⟨rfl, [p.current], ?_, fun t ht => ⟨?_, rfl, rfl⟩⟩
    · rw [hrun]
      exact .advanced hlast (hend htest)
    · rw [hrun] at ht
      cases ht
      rfl

/-- A step behind the current token. -/
theorem pass_advanced {f f' : Token → Parse α} (hlast : p.last.isEnd = true)
    (hend : p.current.isEnd = false)
    (hf : Walks (fun a us => S a ([p.current] ++ us)) (f p.current) (f' p.current) p.advanced) :
    Walks S (advance >>= f) (advance >>= f') p := by
  obtain ⟨hsame, us, hus, hanswer⟩ := hf
  exact ⟨hsame, [p.current] ++ us, (Parser.Reaches.advanced hlast hend).trans hus, hanswer⟩

theorem pass {f f' : Token → Parse α} (hlast : p.last.isEnd = true) (hend : p.current.isEnd = false)
    (hf : ∀ q, p.Reaches [p.current] q →
      Walks (fun a us => S a ([p.current] ++ us)) (f p.current) (f' p.current) q) :
    Walks S (advance >>= f) (advance >>= f') p :=
  pass_advanced hlast hend (hf _ (.advanced hlast hend))

theorem operator {f f' : Token → Parse α} (s : String) (hlast : p.last.isEnd = true)
    (hf : ∀ q, p.Reaches [p.current] q → p.current.isOperator s = true →
      Walks (fun a us => S a ([p.current] ++ us)) (f p.current) (f' p.current) q) :
    Walks S (expectOperator s >>= f) (expectOperator s >>= f') p := by
  refine (token (takes_expected _ _) hlast fun ht => ?_).bind fun t q ts hts ht => ?_
  · exact not_end_of_operator (operator_of_isOperator ht).1
  · obtain ⟨rfl, rfl, ht⟩ := ht
    exact hf q hts ht

theorem bracket {f f' : Token → Parse α} (s : String) (hlast : p.last.isEnd = true)
    (hf : ∀ q, p.Reaches [p.current] q → p.current.isBracket s = true →
      Walks (fun a us => S a ([p.current] ++ us)) (f p.current) (f' p.current) q) :
    Walks S (expectBracket s >>= f) (expectBracket s >>= f') p := by
  refine (token (takes_expected _ _) hlast not_end_of_bracket).bind fun t q ts hts ht => ?_
  obtain ⟨rfl, rfl, ht⟩ := ht
  exact hf q hts ht

theorem closing {f f' : Token → Parse α} {test : Token → Bool} (opening : Token)
    (hlast : p.last.isEnd = true) (htest : ∀ t, test t = true → t.kind = .bracket)
    (hf : ∀ q, p.Reaches [p.current] q → p.current.kind = .bracket →
      Walks (fun a us => S a ([p.current] ++ us)) (f p.current) (f' p.current) q) :
    Walks S (expectClosing test opening >>= f) (expectClosing test opening >>= f') p := by
  refine (token (takes_closing _ _) hlast fun ht => ?_).bind fun t q ts hts ht => ?_
  · simp [isEnd, htest _ ht]
  · obtain ⟨rfl, rfl, ht⟩ := ht
    exact hf q hts (htest _ ht)

/-- A step that passes just the next tokens. -/
theorem of_reads {a : α} (hp : p.ahead = ts ++ us) (hend : ∀ t ∈ ts, t.isEnd = false)
    (hm : Parse.Reads m p.table p.last ts us a) :
    Walks (fun b vs => b = a ∧ vs = ts) m m p := by
  have hrun : m.run p = (.ok a, ⟨ts.reverse ++ p.passed, us, p.last, p.table⟩) := by
    have hown : p = ⟨p.passed, ts ++ us, p.last, p.table⟩ := by rw [← hp]
    rw [hown]
    exact hm p.passed
  refine ⟨rfl, ts, ?_, fun b hb => ⟨?_, rfl⟩⟩
  · rw [hrun]
    exact ⟨rfl, rfl, rfl, hp ▸ Passes.append hend us⟩
  · rw [hrun] at hb
    cases hb
    rfl

/-- Steps that expand a shorthand first. -/
theorem of_expanded {span : List Token} (hspan : IsShorthand span) (hp : p.ahead = span ++ us)
    (h : Walks S m₁ m₁' (p.before (expandShorthand span ++ us)))
    (hm : m.run p = m₁.run (p.before (expandShorthand span ++ us)))
    (hm' : m'.run p = m₁'.run (p.before (expandShorthand span ++ us))) : Walks S m m' p := by
  obtain ⟨ts, hts, hanswer⟩ := h.passes
  refine ⟨hm'.trans (h.same.trans hm.symm), ts, ?_, ?_⟩
  · rw [hm]
    refine ⟨hts.passed, hts.last, hts.table, ?_⟩
    rw [hp]
    exact .expand hspan hts.ahead
  · rw [hm]
    exact hanswer

end Walks

/-! ### Bounds on the depth -/

/-- A depth of `d` suffices for the tokens ahead. -/
structure Parser.Within (d : Nat) (p : Parser) : Prop where
  ended : p.last.isEnd = true
  weight_lt : weight p.ahead < d

namespace Parser.Within

theorem own (hlast : p.last.isEnd = true) : p.Within (weight p.ahead + 1) :=
  ⟨hlast, Nat.lt_succ_self _⟩

theorem after (h : p.Within d) (hts : p.Reaches ts q) : q.Within d :=
  ⟨hts.ended h.ended, by have := hts.weight_le; have := h.weight_lt; omega⟩

/-- A token has been passed, so one level less suffices. -/
theorem behind {t : Token} (h : p.Within (d + 1)) (hts : p.Reaches (t :: ts) q) : q.Within d := by
  have hone : 1 ≤ t.weight := by
    rw [Token.weight]
    split
    · omega
    · split <;> omega
  have hle := hts.weight_le
  rw [weight_eq_tally (t :: ts), tally] at hle
  have hlt := h.weight_lt
  exact ⟨hts.ended h.ended, by omega⟩

theorem deeper (h : p.Within d) : p.Within (d + 1) := ⟨h.ended, Nat.lt_succ_of_lt h.weight_lt⟩

theorem same {table : Precedence} (h : p.Within d) : Parser.Within d { p with table } :=
  ⟨h.ended, h.weight_lt⟩

end Parser.Within

/-! ### Loops -/

/-- What is kept of the tokens that a value is read from: their operands are those of the value. The
size of the tokens is `n` at least. -/
structure Keeps (f : α → List Token) (n : Nat) (a : α) (ts : List Token) : Prop where
  atoms : f a = Token.atoms ts
  total_ge : n ≤ total ts

/-- The same for the values of a loop; each of them is read from tokens of size 2 at least. -/
abbrev KeepsEach (f : α → List Token) (as : List α) (ts : List Token) : Prop :=
  Keeps (List.flatMap f) (2 * as.length) as ts

namespace Walks

variable {f : α → List Token} {more : Parser → Bool} {item item' : Parse α}

/-- A loop that goes on at operators, with rounds of size 2 at least. Any two numbers of rounds that the
tokens ahead allow are alike. -/
protected theorem repeatWhile (hoperator : ∀ p, more p = true → p.current.kind = .operator)
    (hitem : ∀ p : Parser, p.Within d → more p = true → Walks (Keeps f 2) item item' p)
    {rounds rounds' : Nat} (h : p.Within d) (hleft : total p.ahead ≤ 2 * rounds)
    (hright : total p.ahead ≤ 2 * rounds') :
    Walks (KeepsEach f) (repeatWhile more item rounds) (repeatWhile more item' rounds')
      p := by
  have hstop : ∀ {p : Parser} {rounds rounds' : Nat}, more p = false →
      Walks (KeepsEach f) (repeatWhile more item rounds) (repeatWhile more item' rounds')
        p := by
    intro p rounds rounds' hp
    refine Walks.congr (.pure (a := []) ⟨rfl, Nat.zero_le _⟩) ?_ ?_
    · rw [repeatWhile_none hp]
      rfl
    · rw [repeatWhile_none hp]
      rfl
  induction rounds generalizing rounds' p with
  | zero =>
    refine hstop (Bool.eq_false_iff.mpr fun hp => ?_)
    have hpos := Parser.total_of_operator h.ended (hoperator p hp)
    omega
  | succ rounds ih =>
    cases hp : more p with
    | false => exact hstop hp
    | true =>
      have hpos := Parser.total_of_operator h.ended (hoperator p hp)
      obtain ⟨rounds', rfl⟩ : ∃ n, rounds' = n + 1 := ⟨rounds' - 1, by omega⟩
      have hround : Walks (KeepsEach f)
          (do
            let a ← item
            let as ← repeatWhile more item rounds
            return a :: as)
          (do
            let a ← item'
            let as ← repeatWhile more item' rounds'
            return a :: as) p := by
        refine (hitem p h hp).bind fun a q ts hts ha => ?_
        have htotal := hts.total_le
        have hsize := ha.total_ge
        refine (ih (h.after hts) (by omega) (by omega)).bind fun as r us _ has => .pure ⟨?_, ?_⟩
        · rw [List.flatMap_cons, ha.atoms, has.atoms, List.append_nil, atoms_append]
        · have hrest := has.total_ge
          rw [List.length_cons, List.append_nil, total_append]
          omega
      exact hround.congr (repeatWhile_some hp _) (repeatWhile_some hp _)

/-- Such a loop with as many rounds as there are tokens ahead. -/
theorem repeat_ahead (hoperator : ∀ p, more p = true → p.current.kind = .operator)
    (hitem : ∀ p : Parser, p.Within d → more p = true → Walks (Keeps f 2) item item' p)
    (h : p.Within d) :
    Walks (KeepsEach f) (state >>= fun p => repeatWhile more item p.ahead.length)
      (state >>= fun p => repeatWhile more item' p.ahead.length) p :=
  .state_bind (Walks.repeatWhile hoperator hitem h (total_le p.ahead) (total_le p.ahead))

theorem many {test : Token → Bool} (hoperator : ∀ t, test t = true → t.kind = .operator)
    (hitem : ∀ p : Parser, p.Within d → test p.current = true → Walks (Keeps f 2) item item' p)
    (h : p.Within d) :
    Walks (KeepsEach f) (Parse.many test item) (Parse.many test item') p :=
  repeat_ahead (fun p => hoperator p.current) hitem h

end Walks

end EventRules
