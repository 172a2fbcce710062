import EventRules.Proofs.Rule.Followers
import EventRules.Proofs.Rule.Lookahead
import EventRules.Proofs.Rule.Reading
import EventRules.Proofs.Rule.Unfolding

/-!
# Steps taken again

A step is taken, the parser goes back to where it was, and the step is taken once more: over the tokens
that the first time has left behind, with its shorthands expanded. `Replays` says that it gives the same
answer or error there and ends at the same place. After an answer the tokens farther on
may have been changed too, so that a sequence replays when its parts do; after an error they are as the
first time left them, and the guesses about parentheses have to be the same.
-/

namespace EventRules
set_option autoImplicit false

open Token Routine Parse Respelling

variable {α β : Type} {back ts us : List Token} {P Q S T : List Token → Prop} {p q : Parser}

/-- What is known of a step that has passed the tokens `ts` with the result `r`, and of the step `m'`
that is taken again from `p`, over tokens that satisfy `P`. The tokens of `back` stand before, the
latest first. -/
structure Replayed (back : List Token) (P S : List Token → Prop) (m' : Parse α) (p : Parser)
    (r : Except ParseError α) (ts : List Token) (q : Parser) : Prop where
  reaches : p.Reaches ts q
  answer : ∀ a, r = .ok a → S ts ∧ ∀ us, Unfolds q.ahead us → P (ts ++ us) →
    m'.run (p.before (ts ++ us)) = (.ok a, q.before us)
  error : ∀ e, r = .error e →
    rangeGuesses back p.ahead = rangeGuesses back (ts ++ q.ahead) → P (ts ++ q.ahead) →
    m'.run (p.before (ts ++ q.ahead)) = (.error e, q)

/-- Taken again as `m'`, the step `m` does the same. An answer stands behind tokens that satisfy `S`. -/
def Replays (back : List Token) (P S : List Token → Prop) (m m' : Parse α) (p : Parser) : Prop :=
  ∀ r q, m.run p = (r, q) → ∃ ts, Replayed back P S m' p r ts q

namespace Replays

theorem weaken {m m' : Parse α} (h : Replays back P S m m' p) (hP : ∀ us, Q us → P us)
    (hS : ∀ ts, S ts → T ts) : Replays back Q T m m' p := by
  intro r q hrun
  obtain ⟨ts, hts⟩ := h r q hrun
  refine ⟨ts, hts.reaches, fun a ha => ?_, fun e he hguess hq => hts.error e he hguess (hP _ hq)⟩
  obtain ⟨hpassed, hagain⟩ := hts.answer a ha
  exact ⟨hS ts hpassed, fun us hus hq => hagain us hus (hP _ hq)⟩

/-- Nothing need be known of a step that is never taken again. -/
theorem of_never {m m' m'' : Parse α} (h : Replays back (fun _ => False) S m m' p) (hP : ∀ us, ¬ P us) :
    Replays back P S m m'' p := by
  intro r q hrun
  obtain ⟨ts, hts⟩ := h r q hrun
  exact ⟨ts, hts.reaches, fun a ha => ⟨(hts.answer a ha).1, fun us _ hp => absurd hp (hP _)⟩,
    fun e _ _ hp => absurd hp (hP _)⟩

/-- Which tokens the first time passes does not depend on what is asked of the second. -/
theorem of_each {m m' : Parse α} (h : ∀ us, Replays back (fun vs => P vs ∧ vs = us) S m m' p) :
    Replays back P S m m' p := by
  intro r q hrun
  obtain ⟨ts, hts⟩ := h [] r q hrun
  have hsame : ∀ us, Replayed back (fun vs => P vs ∧ vs = us) S m' p r ts q := by
    intro us
    obtain ⟨ts', hts'⟩ := h us r q hrun
    rwa [hts'.reaches.unique hts.reaches] at hts'
  refine ⟨ts, hts.reaches, fun a ha => ⟨(hts.answer a ha).1, fun us hus hp => ?_⟩, fun e he hguess hp => ?_⟩
  · exact ((hsame _).answer a ha).2 us hus ⟨hp, rfl⟩
  · exact (hsame _).error e he hguess ⟨hp, rfl⟩

/-- The steps may be others that do the same here, over tokens that the first time has left. -/
theorem congr_run {m m' m₁ m₁' : Parse α} (h : Replays back P S m₁ m₁' p) (hm : m.run p = m₁.run p)
    (hm' : ∀ r q ts us, m₁.run p = (r, q) → p.Reaches ts q → Unfolds q.ahead us →
      ((∃ e, r = .error e) → us = q.ahead) → P (ts ++ us) →
      m'.run (p.before (ts ++ us)) = m₁'.run (p.before (ts ++ us))) :
    Replays back P S m m' p := by
  intro r q hrun
  rw [hm] at hrun
  obtain ⟨ts, hts⟩ := h r q hrun
  refine ⟨ts, hts.reaches, fun a ha => ?_, fun e he hguess hp => ?_⟩
  · obtain ⟨hpassed, hagain⟩ := hts.answer a ha
    refine ⟨hpassed, fun us hus hp => ?_⟩
    have hnone : (∃ e, r = .error e) → us = q.ahead := by
      rintro ⟨e, he⟩
      rw [ha] at he
      cases he
    rw [hm' r q ts us hrun hts.reaches hus hnone hp]
    exact hagain us hus hp
  · rw [hm' r q ts _ hrun hts.reaches (.refl _) (fun _ => rfl) hp]
    exact hts.error e he hguess hp

/-- The steps may be others that do the same here, whatever has been expanded. -/
theorem congr {m m' m₁ m₁' : Parse α} (h : Replays back P S m₁ m₁' p) (hm : m.run p = m₁.run p)
    (hm' : ∀ us, Unfolds p.ahead us → P us → m'.run (p.before us) = m₁'.run (p.before us)) :
    Replays back P S m m' p :=
  h.congr_run hm fun _ _ _ _ _ hreached hus _ hp => hm' _ (hreached.unfolds hus) hp

/-- A step that expands a shorthand first. It finds the arrow when it is taken again. -/
theorem of_expanded {m m' m₁ m₁' : Parse α} {span : List Token} (hspan : IsShorthand span)
    (hp : p.ahead = span ++ us) (h : Replays back P S m₁ m₁' (p.before (expandShorthand span ++ us)))
    (hm : m.run p = m₁.run (p.before (expandShorthand span ++ us)))
    (hm' : ∀ vs, Unfolds (expandShorthand span ++ us) vs →
      m'.run (p.before vs) = m₁'.run (p.before vs)) : Replays back P S m m' p := by
  intro r q hrun
  rw [hm] at hrun
  obtain ⟨ts, hreached, hanswer, herror⟩ := h r q hrun
  refine ⟨ts, ⟨hreached.passed, hreached.last, hreached.table, ?_⟩, fun a ha => ?_, fun e he hguess hP => ?_⟩
  · rw [hp]
    exact .expand hspan hreached.ahead
  · obtain ⟨hpassed, hagain⟩ := hanswer a ha
    refine ⟨hpassed, fun vs hvs hP => ?_⟩
    rw [hm' _ (hreached.unfolds hvs)]
    exact hagain vs hvs hP
  · rw [hm' _ (hreached.unfolds (.refl _))]
    refine herror e he ?_ hP
    rw [Parser.before_ahead, (hspan.guesses back us).1, ← hp]
    exact hguess

/-- The steps may be others that do the same here when the parenthesis is taken for the same. After an
answer the tokens passed tell what it is. -/
theorem congr_guess {m m' m₁ m₁' : Parse α} {isRange : Bool} (ho : p.current.isBracket "(" = true)
    (hlast : p.last.isEnd = true) (hback : opensArguments back = false)
    (hp : startsRange p.ahead = isRange)
    (h : Replays back P (fun ts => S ts ∧ ∀ rest, startsRange (ts ++ rest) = isRange) m₁ m₁' p)
    (hm : m.run p = m₁.run p)
    (hm' : ∀ us, Unfolds p.ahead us → startsRange us = isRange →
      m'.run (p.before us) = m₁'.run (p.before us)) : Replays back P S m m' p := by
  intro r q hrun
  rw [hm] at hrun
  obtain ⟨ts, hts⟩ := h r q hrun
  refine ⟨ts, hts.reaches, fun a ha => ?_, fun e he hguess hP => ?_⟩
  · obtain ⟨⟨hpassed, hrange⟩, hagain⟩ := hts.answer a ha
    refine ⟨hpassed, fun us hus hP => ?_⟩
    rw [hm' _ (hts.reaches.unfolds hus) (hrange us)]
    exact hagain us hus hP
  · have hunfolds := hts.reaches.unfolds (.refl q.ahead)
    have hrange : startsRange (ts ++ q.ahead) = isRange := by
      obtain ⟨us, hahead⟩ := Parser.ahead_of_current hlast (not_end_of_bracket ho)
      obtain ⟨vs, hvs⟩ : ∃ vs, ts ++ q.ahead = p.current :: vs := by
        have hkept := hunfolds.kept (blind_bracket (by decide)) ho
        have hbefore := Parser.ahead_of_current (p := p.before (ts ++ q.ahead)) hlast
          (hkept ▸ not_end_of_bracket ho)
        rwa [hkept] at hbefore
      rw [hvs, hahead, guesses_cons ho hback, guesses_cons ho hback] at hguess
      rw [hvs, ← (List.cons_eq_cons.mp hguess).1, ← hahead, hp]
    rw [hm' _ hunfolds hrange]
    exact hts.error e he hguess hP

theorem pure {a : α} (h : S []) : Replays back P S (Pure.pure a) (Pure.pure a) p := by
  intro r q hrun
  cases hrun
  refine ⟨[], .refl p, fun b hb => ⟨h, fun us _ _ => ?_⟩, fun e he => nomatch he⟩
  cases hb
  rfl

/-- A step that fails at once. -/
theorem fail {m m' : Parse α} {e : ParseError} (h : m.run p = (.error e, p))
    (h' : m'.run p = (.error e, p)) : Replays back P S m m' p := by
  intro r q hrun
  rw [h] at hrun
  cases hrun
  refine ⟨[], .refl p, fun b hb => (nomatch hb), fun e' he _ _ => ?_⟩
  cases he
  exact h'

protected theorem ofExcept (x : Except ParseError α) (h : S []) :
    Replays back P S (ofExcept x) (ofExcept x) p := by
  cases x with
  | ok a => exact pure h
  | error e => exact fail rfl rfl

/-- A sequence. Both what is asked of the tokens and what is known of them are passed on to the second
part without the tokens of the first. -/
theorem bind {m m' : Parse α} {f f' : α → Parse β} (hm : Replays back P S m m' p)
    (hf : ∀ a q ts, p.Reaches ts q → S ts →
      Replays (ts.reverse ++ back) (fun us => P (ts ++ us)) (fun us => T (ts ++ us)) (f a) (f' a) q) :
    Replays back P T (m >>= f) (m' >>= f') p := by
  intro r q hrun
  cases hfirst : m.run p with
  | mk r₁ p₁ =>
    obtain ⟨ts, hts⟩ := hm r₁ p₁ hfirst
    cases r₁ with
    | error e =>
      rw [run_bind_error hfirst] at hrun
      cases hrun
      refine ⟨ts, hts.reaches, fun a ha => (nomatch ha), fun e' he hguess hp => ?_⟩
      cases he
      exact run_bind_error (hts.error e rfl hguess hp) f'
    | ok a =>
      rw [run_bind_ok hfirst] at hrun
      obtain ⟨hpassed, hagain⟩ := hts.answer a rfl
      obtain ⟨us, hus⟩ := hf a p₁ ts hts.reaches hpassed r q hrun
      have hmiddle : ∀ vs, Unfolds q.ahead vs → P (ts ++ (us ++ vs)) →
          (m' >>= f').run (p.before (ts ++ (us ++ vs))) = (f' a).run (p₁.before (us ++ vs)) :=
        fun vs hvs hp => run_bind_ok (hagain _ (hus.reaches.unfolds hvs) hp) f'
      refine ⟨ts ++ us, hts.reaches.trans hus.reaches, fun b hb => ?_, fun e he hguess hp => ?_⟩
      · obtain ⟨hpassed', hagain'⟩ := hus.answer b hb
        refine ⟨hpassed', fun vs hvs hp => ?_⟩
        rw [List.append_assoc] at hp ⊢
        rw [hmiddle vs hvs hp, hagain' vs hvs hp]
      · rw [List.append_assoc] at hguess hp ⊢
        rw [hmiddle _ (.refl _) hp]
        exact hus.error e he (hts.reaches.ahead.guesses back hguess) hp

theorem map {m m' : Parse α} (g : α → β) (h : Replays back P S m m' p) :
    Replays back P S (g <$> m) (g <$> m') p := by
  have hbind : Replays back P S (m >>= fun a => Pure.pure (g a)) (m' >>= fun a => Pure.pure (g a)) p :=
    h.bind fun a q ts _ hts => pure ((List.append_nil ts).symm ▸ hts)
  exact hbind

protected theorem withTable {m m' : Parse α} {table : Precedence} (h : Replays back P S m m' { p with table }) :
    Replays back P S (withTable table m) (withTable table m') p := by
  intro r q hrun
  have hrun : ((m.run { p with table }).1, { (m.run { p with table }).2 with table := p.table }) =
      (r, q) := hrun
  have hagain : ∀ us, (withTable table m').run (p.before us) =
      ((m'.run ((Parser.mk p.passed p.ahead p.last table).before us)).1,
        { (m'.run ((Parser.mk p.passed p.ahead p.last table).before us)).2 with table := p.table }) :=
    fun _ => rfl
  cases hfirst : m.run { p with table } with
  | mk r₁ p₁ =>
    rw [hfirst] at hrun
    cases hrun
    obtain ⟨ts, hts⟩ := h r₁ p₁ hfirst
    have hreached := hts.reaches
    refine ⟨ts, ⟨hreached.passed, hreached.last, rfl, hreached.ahead⟩, fun a ha => ?_,
      fun e he hguess hp => ?_⟩
    · obtain ⟨hpassed, hagain'⟩ := hts.answer a ha
      refine ⟨hpassed, fun us hus hp => ?_⟩
      rw [hagain, hagain' us hus hp]
      rfl
    · rw [hagain, hts.error e he hguess hp]

/-! ### Tests and tokens -/

theorem sees_bind {test : Token → Bool} {f f' : Bool → Parse α} (ht : Blind test)
    (htrue : test p.current = true → Replays back P S (f true) (f' true) p)
    (hfalse : test p.current = false → Replays back P S (f false) (f' false) p) :
    Replays back P S (sees test >>= f) (sees test >>= f') p := by
  have hboth : Replays back P S (f (test p.current)) (f' (test p.current)) p := by
    cases hsees : test p.current with
    | true => exact htrue hsees
    | false => exact hfalse hsees
  refine hboth.congr rfl fun us hus _ => ?_
  rw [← hus.agree ht]
  rfl

/-- The current token, where expansions keep it. -/
theorem current_bind {f f' : Token → Parse α}
    (hkept : ∀ us, Unfolds p.ahead us → (p.before us).current = p.current)
    (hf : Replays back P S (f p.current) (f' p.current) p) :
    Replays back P S (Parse.current >>= f) (Parse.current >>= f') p := by
  refine hf.congr rfl fun us hus _ => ?_
  rw [← hkept us hus]
  rfl

theorem token {m : Parse Token} {test : Token → Bool} (hm : Takes m test) (hlast : p.last.isEnd = true)
    (hend : test p.current = true → p.current.isEnd = false) :
    Replays back P (fun ts => ts = [p.current] ∧ test p.current = true) m m p := by
  cases htest : test p.current with
  | false =>
    obtain ⟨e, he⟩ := hm.fails p htest
    exact fail he he
  | true =>
    intro r q hrun
    rw [hm.takes p htest] at hrun
    cases hrun
    have hcurrent := hend htest
    have hreached := Parser.Reaches.advanced hlast hcurrent
    refine ⟨[p.current], hreached, fun a ha => ⟨⟨rfl, rfl⟩, fun us _ _ => ?_⟩, fun e he => nomatch he⟩
    cases ha
    obtain ⟨us', hp⟩ := Parser.ahead_of_current hlast hcurrent
    have hagain : (p.before ([p.current] ++ us)).advanced = p.advanced.before us := by
      rw [Parser.advanced_of_ahead hp hcurrent]
      exact Parser.advanced_of_ahead rfl hcurrent
    rw [hm.takes (p.before ([p.current] ++ us)) htest, hagain]
    rfl

/-- A step that passes just the next tokens, whatever comes behind them. -/
theorem of_reads {m : Parse α} {a : α} (hp : p.ahead = ts ++ us) (hend : ∀ t ∈ ts, t.isEnd = false)
    (hm : ∀ rest, Parse.Reads m p.table p.last ts rest a) : Replays back P (· = ts) m m p := by
  have hrun : ∀ rest, m.run (p.before (ts ++ rest)) =
      (.ok a, ⟨ts.reverse ++ p.passed, rest, p.last, p.table⟩) := fun rest => hm rest p.passed
  have hfirst := hrun us
  rw [← hp, Parser.before_own] at hfirst
  intro r q hq
  rw [hfirst] at hq
  cases hq
  refine ⟨ts, ⟨rfl, rfl, rfl, hp ▸ Passes.append hend us⟩, fun b hb => ⟨rfl, fun vs _ _ => ?_⟩,
    fun e he => nomatch he⟩
  cases hb
  exact hrun vs

theorem operator (s : String) (hlast : p.last.isEnd = true) :
    Replays back P (fun ts => ts = [p.current] ∧ p.current.isOperator s = true) (expectOperator s)
      (expectOperator s) p :=
  token (takes_expected _ _) hlast fun ht => not_end_of_operator (operator_of_isOperator ht).1

theorem bracket (s : String) (hlast : p.last.isEnd = true) :
    Replays back P (fun ts => ts = [p.current] ∧ p.current.isBracket s = true) (expectBracket s)
      (expectBracket s) p :=
  token (takes_expected _ _) hlast fun ht => not_end_of_bracket ht

theorem closing (s : String) (opening : Token) (hlast : p.last.isEnd = true) :
    Replays back P (fun ts => ts = [p.current] ∧ p.current.isBracket s = true)
      (expectClosing (·.isBracket s) opening) (expectClosing (·.isBracket s) opening) p :=
  token (takes_closing _ _) hlast fun ht => not_end_of_bracket ht

end Replays

/-- A step that passes the current token first, or fails in front of it. -/
def Led (m : Parse α) (p : Parser) : Prop :=
  ∀ r q, m.run p = (r, q) → q = p ∧ (∃ e, r = .error e) ∨ ∃ ts, p.advanced.Reaches ts q

namespace Led

/-- Where such a step is taken again, the current token is the same. -/
theorem current {m : Parse α} (h : Led m p) (hlast : p.last.isEnd = true)
    (hend : p.current.isEnd = false) {r : Except ParseError α} (hrun : m.run p = (r, q))
    (hreached : p.Reaches ts q) (hus : (∃ e, r = .error e) → us = q.ahead) :
    (p.before (ts ++ us)).current = p.current := by
  rcases h r q hrun with ⟨rfl, herror⟩ | ⟨ts', hreached'⟩
  · rw [hreached.unique (.refl q), hus herror]
    rfl
  · rw [hreached.unique ((Parser.Reaches.advanced hlast hend).trans hreached')]
    rfl

theorem of_error {m : Parse α} {e : ParseError} (h : m.run p = (.error e, p)) : Led m p := by
  intro r q hrun
  rw [h] at hrun
  cases hrun
  exact Or.inl ⟨rfl, e, rfl⟩

theorem congr {m m₁ : Parse α} (h : Led m₁ p) (hm : m.run p = m₁.run p) : Led m p := by
  intro r q hrun
  rw [hm] at hrun
  exact h r q hrun

theorem advance (p : Parser) : Led advance p := by
  intro r q hrun
  cases hrun
  exact Or.inr ⟨[], .refl _⟩

theorem bind {m : Parse α} {f : α → Parse β} (hm : Led m p)
    (hf : ∀ a q, m.run p = (.ok a, q) → ∀ r q', (f a).run q = (r, q') → ∃ ts, q.Reaches ts q') :
    Led (m >>= f) p := by
  intro r q hrun
  cases hfirst : m.run p with
  | mk r₁ p₁ =>
    cases r₁ with
    | error e =>
      rw [run_bind_error hfirst] at hrun
      cases hrun
      rcases hm _ _ hfirst with ⟨hq, -⟩ | hreached
      · exact Or.inl ⟨hq, e, rfl⟩
      · exact Or.inr hreached
    | ok a =>
      rw [run_bind_ok hfirst] at hrun
      obtain ⟨us, hus⟩ := hf a p₁ hfirst r q hrun
      rcases hm _ _ hfirst with ⟨-, e, he⟩ | ⟨ts, hts⟩
      · cases he
      · exact Or.inr ⟨ts ++ us, hts.trans hus⟩

end Led

namespace Replays

theorem reaches {m m' : Parse α} (h : Replays back P S m m' p) {r : Except ParseError α}
    (hrun : m.run p = (r, q)) : ∃ ts, p.Reaches ts q := by
  obtain ⟨ts, hts⟩ := h r q hrun
  exact ⟨ts, hts.reaches⟩

theorem bind_led {m m' : Parse α} {f f' : α → Parse β} (hm : Replays back P S m m' p) (hled : Led m p)
    (hf : ∀ a q ts, p.Reaches ts q → S ts →
      Replays (ts.reverse ++ back) (fun us => P (ts ++ us)) (fun us => T (ts ++ us)) (f a) (f' a) q) :
    Replays back P T (m >>= f) (m' >>= f') p ∧ Led (m >>= f) p := by
  refine ⟨hm.bind hf, hled.bind fun a q hrun r q' hrun' => ?_⟩
  obtain ⟨ts, hts⟩ := hm _ q hrun
  exact (hf a q ts hts.reaches (hts.answer a rfl).1).reaches hrun'

/-- A step behind the current token. -/
theorem pass {f f' : Token → Parse α} (hlast : p.last.isEnd = true) (hend : p.current.isEnd = false)
    (hf : ∀ t q, p.Reaches [p.current] q → Replays (p.current :: back) (fun us => P ([p.current] ++ us))
      (fun us => S ([p.current] ++ us)) (f t) (f' t) q) :
    Replays back P S (advance >>= f) (advance >>= f') p ∧ Led (advance >>= f) p := by
  refine (token takes_any hlast fun _ => hend).bind_led (.advance p) fun t q ts hreached hts => ?_
  obtain ⟨rfl, -⟩ := hts
  exact hf t q hreached

end Replays

/-! ### Bounds on the depth -/

/-- Depths that suffice for the tokens ahead: `d` the first time and `d'` the second. -/
structure Room (d d' : Nat) (P : List Token → Prop) (p : Parser) : Prop where
  ended : p.last.isEnd = true
  left : weight p.ahead < d
  right : ∀ us, P us → weight us < d'

namespace Room

variable {d d' : Nat} {t : Token}

theorem after (h : Room d d' P p) (hreached : p.Reaches ts q) : Room d d' (fun us => P (ts ++ us)) q := by
  refine ⟨hreached.ended h.ended, ?_, fun us hus => ?_⟩
  · have hleft := h.left
    have hle := hreached.weight_le
    omega
  · have hright := h.right _ hus
    rw [weight_eq_tally, tally_append] at hright
    rw [weight_eq_tally]
    omega

/-- A token has been passed, so one level less suffices. -/
theorem behind (h : Room (d + 1) (d' + 1) P p) (hreached : p.Reaches (t :: ts) q) :
    Room d d' (fun us => P (t :: ts ++ us)) q := by
  have hone : 1 ≤ t.weight := by
    rw [Token.weight]
    split
    · omega
    · split <;> omega
  refine ⟨hreached.ended h.ended, ?_, fun us hus => ?_⟩
  · have hleft := h.left
    have hle := hreached.weight_le
    rw [weight_eq_tally (t :: ts), tally] at hle
    omega
  · have hright := h.right _ hus
    rw [weight_eq_tally, tally_append, tally] at hright
    rw [weight_eq_tally]
    omega

theorem mono (h : Room d d' P p) (hP : ∀ us, Q us → P us) : Room d d' Q p :=
  ⟨h.ended, h.left, fun us hus => h.right us (hP us hus)⟩

theorem same {table : Precedence} (h : Room d d' P p) : Room d d' P { p with table } :=
  ⟨h.ended, h.left, h.right⟩

end Room

/-! ### Loops -/

namespace Replays

variable {d d' : Nat} {more : Parser → Bool} {item item' : Parse α}

/-- A loop that does not go on. -/
theorem repeat_stop (hnone : ∀ p us, Unfolds p.ahead us → more p = false → more (p.before us) = false)
    (hnil : S []) (hp : more p = false) (rounds rounds' : Nat) :
    Replays back P S (repeatWhile more item rounds) (repeatWhile more item' rounds') p := by
  refine (Replays.pure (a := []) hnil).congr (repeatWhile_none hp _) fun us hus _ => ?_
  exact repeatWhile_none (hnone p us hus hp) _

variable (hmore : ∀ p q : Parser, p.current = q.current → p.table = q.table → more p = more q)
  (hoperator : ∀ p, more p = true → p.current.kind = .operator)

include hmore hoperator

/-- A round of a loop and the rounds behind it. -/
theorem repeat_round {rounds rounds' : Nat} (hlast : p.last.isEnd = true) (hp : more p = true)
    (happend : ∀ ts us, S ts → S us → S (ts ++ us))
    (hround : Replays back P (fun ts => 2 ≤ total ts ∧ S ts) item item' p) (hled : Led item p)
    (hright : ∀ us, P us → total us ≤ 2 * rounds')
    (hrest : ∀ q ts, p.Reaches ts q → 2 ≤ total ts →
      Replays (ts.reverse ++ back) (fun us => P (ts ++ us)) S (repeatWhile more item rounds)
        (repeatWhile more item' (rounds' - 1)) q) :
    Replays back P S (repeatWhile more item (rounds + 1)) (repeatWhile more item' rounds') p := by
  have hend := not_end_of_operator (hoperator p hp)
  obtain ⟨hrounds, hled⟩ : Replays back P S
      (do
        let a ← item
        let as ← repeatWhile more item rounds
        return a :: as)
      (do
        let a ← item'
        let as ← repeatWhile more item' (rounds' - 1)
        return a :: as) p ∧ Led _ p := by
    refine hround.bind_led hled fun a q ts hreached hts => ?_
    refine (hrest q ts hreached hts.1).bind fun as q' us _ hus => Replays.pure ?_
    rw [List.append_nil]
    exact happend ts us hts.2 hus
  refine hrounds.congr_run (repeatWhile_some hp _) fun r q ts us hrun hreached _ hus hP => ?_
  -- the second loop is at the same operator, and its rounds are not used up
  have hagain : more (p.before (ts ++ us)) = true := by
    rw [hmore _ p (hled.current hlast hend hrun hreached hus) rfl, hp]
  obtain ⟨n, rfl⟩ : ∃ n, rounds' = n + 1 := by
    have hpos := Parser.total_of_operator (p := p.before (ts ++ us)) hlast (hoperator _ hagain)
    have hle := hright _ hP
    rw [Parser.before_ahead] at hpos
    exact ⟨rounds' - 1, by omega⟩
  exact repeatWhile_some hagain n

variable (hnone : ∀ p us, Unfolds p.ahead us → more p = false → more (p.before us) = false)
  (hnil : S []) (happend : ∀ ts us, S ts → S us → S (ts ++ us))
  (hitem : ∀ back P p, Room d d' P p → more p = true →
    Replays back P (fun ts => 2 ≤ total ts ∧ S ts) item item' p ∧ Led item p)

include hnone hnil happend hitem

/-- A loop that goes on at operators, with rounds of size 2 at least, as many as the tokens ahead
allow. -/
protected theorem repeatWhile {rounds rounds' : Nat} (h : Room d d' P p) (hleft : total p.ahead ≤ 2 * rounds)
    (hright : ∀ us, P us → total us ≤ 2 * rounds') :
    Replays back P S (repeatWhile more item rounds) (repeatWhile more item' rounds') p := by
  induction rounds generalizing rounds' back P p with
  | zero =>
    refine repeat_stop hnone hnil ?_ 0 rounds'
    cases hp : more p with
    | false => rfl
    | true =>
      have := Parser.total_of_operator h.ended (hoperator p hp)
      omega
  | succ rounds ih =>
    cases hp : more p with
    | false => exact repeat_stop hnone hnil hp _ _
    | true =>
      obtain ⟨hround, hled⟩ := hitem back P p h hp
      refine repeat_round hmore hoperator h.ended hp happend hround hled hright fun q ts hreached hts => ?_
      have htotal := hreached.total_le
      refine ih (h.after hreached) (by omega) fun us hus => ?_
      have hle := hright _ hus
      rw [total_append] at hle
      omega

/-- Such a loop with as many rounds as there are tokens ahead. -/
theorem repeat_ahead (h : Room d d' P p) :
    Replays back P S (state >>= fun p => repeatWhile more item p.ahead.length)
      (state >>= fun p => repeatWhile more item' p.ahead.length) p := by
  refine of_each fun vs => ?_
  have hloop : Replays back (fun us => P us ∧ us = vs) S (repeatWhile more item p.ahead.length)
      (repeatWhile more item' vs.length) p :=
    Replays.repeatWhile hmore hoperator hnone hnil happend hitem (h.mono fun _ hus => hus.1)
      (total_le p.ahead) fun us hus => hus.2 ▸ total_le us
  refine hloop.congr rfl fun us _ hus => ?_
  rw [← hus.2]
  rfl

end Replays

/-- A loop that goes on at operators which a blind test finds. -/
theorem Replays.many {d d' : Nat} {test : Token → Bool} {item item' : Parse α} (ht : Blind test)
    (hoperator : ∀ t, test t = true → t.kind = .operator) (hnil : S [])
    (happend : ∀ ts us, S ts → S us → S (ts ++ us))
    (hitem : ∀ back P p, Room d d' P p → test p.current = true →
      Replays back P (fun ts => 2 ≤ total ts ∧ S ts) item item' p ∧ Led item p)
    (h : Room d d' P p) : Replays back P S (Parse.many test item) (Parse.many test item') p :=
  repeat_ahead (fun _ _ hsame _ => congrArg test hsame) (fun _ => hoperator _)
    (fun _ _ hus hp => (hus.agree ht).trans hp) hnil happend hitem h

end EventRules
