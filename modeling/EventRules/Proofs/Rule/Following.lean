import EventRules.Proofs.Rule.Respelling

/-!
# Steps that follow others

A step in front of the shorthand follows one in front of the arrow when it answers whenever that one
does, with a related answer, and leaves the parsers beside each other. Only behind a complete
operand may the first parser stop where the other one goes on, since `<` is also a binary operator; it is
`Stuck` then, and no construct goes on from there.

The steps of the grammar are put together in the order of their definitions: a token that both parsers
pass, a test that they agree on, a loop whose rounds get smaller on both sides.
-/

namespace EventRules
set_option autoImplicit false

open Token Routine Parse

namespace Respelling

variable {α β γ δ : Type} {w : Respelling} {lost kept : Parser → Prop} {n k : Nat} {p q : Parser}

def Never (_ : Parser) : Prop := False

variable (w) in
/-- The parsers after steps of size `n` at least. -/
structure Reached (n : Nat) (p q p' q' : Parser) : Prop where
  beside : w.Beside p' q'
  left : total p'.ahead + n ≤ total p.ahead
  right : total q'.ahead + n ≤ total q.ahead

variable (w) in
def Follows (lost : Parser → Prop) (n : Nat) (R : α → β → Parser → Prop) (m : Parse α) (m' : Parse β)
    (p q : Parser) : Prop :=
  ∀ a p', m.run p = (.ok a, p') →
    lost p' ∨ ∃ b q', m'.run q = (.ok b, q') ∧ w.Reached n p q p' q' ∧ R a b p'

variable (w) in
/-- A step that ends in `lost` if it can be taken by a stuck parser at all. -/
def Stalls (lost : Parser → Prop) (m : Parse α) : Prop :=
  ∀ p, w.Stuck p → ∀ a p', m.run p = (.ok a, p') → lost p'

namespace Follows

variable {R : α → β → Parser → Prop} {S : γ → δ → Parser → Prop} {m : Parse α} {m' : Parse β}
  {f : α → Parse γ} {f' : β → Parse δ}

theorem pure {a : α} {b : β} (h : w.Beside p q) (hR : R a b p) :
    w.Follows lost 0 R (Pure.pure a) (Pure.pure b) p q := by
  intro c p' hrun
  cases hrun
  exact Or.inr ⟨b, q, rfl, ⟨h, Nat.le_refl _, Nat.le_refl _⟩, hR⟩

theorem of_error {e : ParseError} {p' : Parser} (h : m.run p = (.error e, p')) :
    w.Follows lost n R m m' p q := by
  intro a p'' hrun
  rw [h] at hrun
  cases hrun

theorem weaken {Q : α → β → Parser → Prop} (h : w.Follows lost n R m m' p q)
    (hlost : ∀ p', lost p' → kept p') (hk : k ≤ n) (hR : ∀ a b p', R a b p' → Q a b p') :
    w.Follows kept k Q m m' p q := by
  intro a p' hrun
  rcases h a p' hrun with h | ⟨b, q', hrun', hreached, hab⟩
  · exact Or.inl (hlost p' h)
  · have hleft := hreached.left
    have hright := hreached.right
    exact Or.inr ⟨b, q', hrun', ⟨hreached.beside, by omega, by omega⟩, hR a b p' hab⟩

theorem answer {Q : α → β → Prop} (h : w.Follows Never n (fun a b _ => Q a b) m m' p q) {a : α}
    (ha : (m.run p).1 = .ok a) : ∃ b, (m'.run q).1 = .ok b ∧ Q a b := by
  rcases h a (m.run p).2 (Prod.ext ha rfl) with hnever | ⟨b, q', hrun, -, hab⟩
  · exact False.elim hnever
  · exact ⟨b, by rw [hrun], hab⟩

theorem at_least (h : w.Follows lost n R m m' p q) (hk : k ≤ n) : w.Follows lost k R m m' p q :=
  h.weaken (fun _ h => h) hk fun _ _ _ h => h

theorem or_lost (h : w.Follows Never n R m m' p q) : w.Follows lost n R m m' p q :=
  h.weaken (fun _ h => False.elim h) (Nat.le_refl n) fun _ _ _ h => h

/-- The steps may be taken elsewhere, where there is no more ahead. -/
theorem elsewhere {m₁ : Parse α} {m₁' : Parse β} {p₁ q₁ : Parser}
    (h : w.Follows lost n R m₁ m₁' p₁ q₁) (hm : m.run p = m₁.run p₁) (hm' : m'.run q = m₁'.run q₁)
    (hp : total p₁.ahead ≤ total p.ahead) (hq : total q₁.ahead ≤ total q.ahead) :
    w.Follows lost n R m m' p q := by
  intro a p' hrun
  rw [hm] at hrun
  rcases h a p' hrun with h | ⟨b, q', hrun', hreached, hab⟩
  · exact Or.inl h
  · have hleft := hreached.left
    have hright := hreached.right
    exact Or.inr ⟨b, q', hm'.trans hrun', ⟨hreached.beside, by omega, by omega⟩, hab⟩

/-- A sequence whose first part may lose its way only where the second one does not find it again. -/
theorem bind_reached (hm : w.Follows lost k R m m' p q)
    (hf : ∀ a b p' q', w.Reached k p q p' q' → R a b p' → w.Follows kept n S (f a) (f' b) p' q')
    (hlost : ∀ a p', lost p' → ∀ c p'', (f a).run p' = (.ok c, p'') → kept p'') :
    w.Follows kept (k + n) S (m >>= f) (m' >>= f') p q := by
  intro c p'' hrun
  obtain ⟨a, p', hrunm, hrunf⟩ := bind_ok hrun
  rcases hm a p' hrunm with h | ⟨b, q', hrunm', hreached, hab⟩
  · exact Or.inl (hlost a p' h c p'' hrunf)
  · rcases hf a b p' q' hreached hab c p'' hrunf with h | ⟨d, q'', hrunf', hreached', hcd⟩
    · exact Or.inl h
    · have hleft := hreached.left
      have hright := hreached.right
      have hleft' := hreached'.left
      have hright' := hreached'.right
      refine Or.inr ⟨d, q'', ?_, ⟨hreached'.beside, by omega, by omega⟩, hcd⟩
      rw [run_bind_ok hrunm', hrunf']

theorem bind_never (hm : w.Follows Never k R m m' p q)
    (hf : ∀ a b p' q', w.Beside p' q' → R a b p' → w.Follows kept n S (f a) (f' b) p' q') :
    w.Follows kept (k + n) S (m >>= f) (m' >>= f') p q :=
  bind_reached hm (fun a b p' q' h => hf a b p' q' h.beside) fun _ _ h => False.elim h

theorem map {g : α → γ} {g' : β → δ} (hm : w.Follows Never n R m m' p q)
    (hR : ∀ a b p', R a b p' → S (g a) (g' b) p') :
    w.Follows lost n S (g <$> m) (g' <$> m') p q := by
  have hbind : w.Follows lost (n + 0) S (m >>= fun a => Pure.pure (g a))
      (m' >>= fun b => Pure.pure (g' b)) p q :=
    hm.bind_never fun a b p' q' h hab => pure h (hR a b p' hab)
  exact hbind

theorem bind_stuck (hm : w.Follows w.Stuck k R m m' p q)
    (hf : ∀ a b p' q', w.Beside p' q' → R a b p' → w.Follows kept n S (f a) (f' b) p' q')
    (hs : ∀ a, w.Stalls kept (f a)) : w.Follows kept (k + n) S (m >>= f) (m' >>= f') p q :=
  bind_reached hm (fun a b p' q' h => hf a b p' q' h.beside) fun a p' h => hs a p' h

protected theorem ofExcept {r r' : Except ParseError α} (h : w.Beside p q)
    (hr : ∀ a, r = .ok a → r' = .ok a) :
    w.Follows lost 0 (fun a b _ => a = b) (ofExcept r) (ofExcept r') p q := by
  intro a p' hrun
  cases hrun
  exact Or.inr ⟨a, q, congrArg (·, q) (hr a rfl), ⟨h, Nat.le_refl _, Nat.le_refl _⟩, rfl⟩

protected theorem withTable {Q : α → β → Prop} {table : Precedence}
    (h : w.Beside p q)
    (hm : ∀ p' q', w.Beside p' q' → p'.passed = p.passed →
      w.Follows w.Stuck n (fun a b _ => Q a b) m m' p' q') :
    w.Follows w.Stuck n (fun a b _ => Q a b) (withTable table m) (withTable table m') p q := by
  have hbeside : w.Beside { p with table } { q with table } := ⟨rfl, h.ended, h.last, h.ahead⟩
  intro a p' hrun
  have hrun : ((m.run { p with table }).1,
      { (m.run { p with table }).2 with table := p.table }) = (.ok a, p') := hrun
  cases hleft : m.run { p with table } with
  | mk r p₁ =>
    rw [hleft] at hrun
    cases hrun
    rcases hm _ _ hbeside rfl a p₁ hleft with hstuck | ⟨b, q₁, hright, hreached, hab⟩
    · exact Or.inl hstuck
    · refine Or.inr ⟨b, { q₁ with table := q.table }, ?_, ⟨?_, hreached.left, hreached.right⟩, hab⟩
      · change ((m'.run { q with table }).1,
          { (m'.run { q with table }).2 with table := q.table }) = _
        rw [hright]
      · exact ⟨h.table, hreached.beside.ended, hreached.beside.last, hreached.beside.ahead⟩

theorem state_bind {f : Parser → Parse γ} {f' : Parser → Parse δ}
    (h : w.Follows kept n S (f p) (f' q) p q) : w.Follows kept n S (state >>= f) (state >>= f') p q := h

theorem current_bind {f : Token → Parse γ} {f' : Token → Parse δ}
    (h : w.Follows kept n S (f p.current) (f' q.current) p q) :
    w.Follows kept n S (Parse.current >>= f) (Parse.current >>= f') p q := h

theorem sees_bind {test : Token → Bool} {f : Bool → Parse γ} {f' : Bool → Parse δ}
    (h : w.Beside p q) (ht : Blind test)
    (htrue : test p.current = true → w.Follows kept n S (f true) (f' true) p q)
    (hfalse : test p.current = false → w.Follows kept n S (f false) (f' false) p q) :
    w.Follows kept n S (sees test >>= f) (sees test >>= f') p q := by
  intro c p' hrun
  have hrun : (f (test p.current)).run p = (.ok c, p') := hrun
  have hright : (sees test >>= f').run q = (f' (test p.current)).run q := by
    rw [h.agree ht]
    rfl
  rw [hright]
  cases hsees : test p.current with
  | true =>
    rw [hsees] at hrun
    exact htrue hsees c p' hrun
  | false =>
    rw [hsees] at hrun
    exact hfalse hsees c p' hrun

end Follows

/-! ### Tokens -/

/-- A step that passes the current token if it satisfies the test, and fails otherwise. -/
structure Takes (m : Parse Token) (test : Token → Bool) : Prop where
  takes : ∀ p : Parser, test p.current = true → m.run p = (.ok p.current, p.advanced)
  fails : ∀ p : Parser, test p.current = false → ∃ e, m.run p = (.error e, p)

theorem takes_any : Takes advance fun _ => true :=
  ⟨fun _ _ => rfl, fun _ h => nomatch h⟩

theorem takes_expected (test : Token → Bool) (expected : Expectation) :
    Takes (expect test expected) test := by
  refine ⟨fun p h => ?_, fun p h => ⟨.unexpected expected p.current, ?_⟩⟩
  · change (if test p.current = true then advance else unexpected expected).run p = _
    rw [if_pos h]
    rfl
  · change (if test p.current = true then advance else unexpected expected).run p = _
    rw [if_neg (ne_true_of_eq_false h)]
    rfl

theorem takes_closing (isClosing : Token → Bool) (opening : Token) :
    Takes (expectClosing isClosing opening) isClosing := by
  refine ⟨fun p h => ?_, fun p h => ⟨.unmatchedBracket opening p.current, ?_⟩⟩
  · change (if isClosing p.current = true then advance else _).run p = _
    rw [if_pos h]
    rfl
  · change (if isClosing p.current = true then advance else fail _).run p = _
    rw [if_neg (ne_true_of_eq_false h)]
    rfl

/-- What is known behind a token that both parsers have passed. -/
structure Took (test : Token → Bool) (p : Parser) (t u : Token) (p' : Parser) : Prop where
  current : t = p.current
  alike : t.Alike u
  holds : test t = true
  advanced : p' = p.advanced
  passed : p'.passed = t :: p.passed
  ahead : p.ahead = t :: p'.ahead

namespace Follows

variable {test : Token → Bool} {m m' : Parse Token}

/-- A token is passed where the current ones are known to be alike. -/
theorem token_alike (h : w.Beside p q) (hm : Takes m test) (hm' : Takes m' test)
    (htest : ∀ t u, Alike t u → test t = test u) (ha : p.current.Alike q.current)
    (hend : p.current.isEnd = false) : w.Follows lost p.current.size (Took test p) m m' p q := by
  have hend' : q.current.isEnd = false := ha.isEnd_eq ▸ hend
  cases ht : test p.current with
  | false =>
    obtain ⟨e, hrun⟩ := hm.fails p ht
    exact of_error hrun
  | true =>
    intro t p' hrun
    rw [hm.takes p ht] at hrun
    cases hrun
    have hleft := Parser.total_advanced h.ended hend
    have hright := Parser.total_advanced h.ended_right hend'
    have hsize := ha.size_eq
    refine Or.inr ⟨q.current, q.advanced, hm'.takes q ((htest _ _ ha).symm.trans ht),
      ⟨h.advanced ha hend, by omega, by omega⟩, rfl, ha, ht, rfl, Parser.passed_advanced h.ended hend,
      Parser.ahead_advanced h.ended hend⟩

theorem pass (h : w.Beside p q) (ha : p.current.Alike q.current) (hend : p.current.isEnd = false) :
    w.Follows Never p.current.size (Took (fun _ => true) p) advance advance p q :=
  token_alike h takes_any takes_any (fun _ _ _ => rfl) ha hend

/-- A token is passed by a test that neither a brace nor `<` satisfies. -/
theorem token (h : w.Beside p q) (hm : Takes m test) (hm' : Takes m' test) (ht : Blind test)
    (hend : ∀ t, test t = true → t.isEnd = false) : w.Follows lost 0 (Took test p) m m' p q := by
  cases hholds : test p.current with
  | false =>
    obtain ⟨e, hrun⟩ := hm.fails p hholds
    exact of_error hrun
  | true =>
    have ha := h.alike_of_test ht hholds
    exact (token_alike h hm hm' ht.alike ha (hend _ hholds)).weaken (fun _ h => h) (Nat.zero_le _)
      fun _ _ _ h => h

theorem operator {s : String} (h : w.Beside p q) (hs : s ≠ "<") :
    w.Follows lost 0 (Took (·.isOperator s) p) (expectOperator s) (expectOperator s) p q :=
  token h (takes_expected _ _) (takes_expected _ _) (blind_operator hs) fun _ ht =>
    not_end_of_operator (operator_of_isOperator ht).1

theorem bracket {s : String} (h : w.Beside p q) (hs : s ≠ "\x7b") :
    w.Follows lost 0 (Took (·.isBracket s) p) (expectBracket s) (expectBracket s) p q :=
  token h (takes_expected _ _) (takes_expected _ _) (blind_bracket hs) fun _ ht =>
    not_end_of_bracket ht

theorem closing {s : String} {opening opening' : Token} (h : w.Beside p q) (hs : s ≠ "\x7b") :
    w.Follows lost 0 (Took (·.isBracket s) p) (expectClosing (·.isBracket s) opening)
      (expectClosing (·.isBracket s) opening') p q :=
  token h (takes_closing _ _) (takes_closing _ _) (blind_bracket hs) fun _ ht => not_end_of_bracket ht

end Follows

/-! ### From where no construct goes on -/

namespace Stalls

theorem pure (a : α) : w.Stalls w.Stuck (Pure.pure a) := by
  intro p h b p' hrun
  cases hrun
  exact h

theorem token_bind {m : Parse Token} {test : Token → Bool} {f : Token → Parse γ} (hm : Takes m test)
    (ht : Blind test) : w.Stalls lost (m >>= f) := by
  intro p h b p' hrun
  obtain ⟨e, herror⟩ := hm.fails p (h.fails ht)
  rw [run_bind_error herror] at hrun
  cases hrun

theorem sees_bind {test : Token → Bool} {f : Bool → Parse γ} (ht : Blind test)
    (hf : w.Stalls lost (f false)) : w.Stalls lost (sees test >>= f) := by
  intro p h b p' hrun
  have hrun : (f (test p.current)).run p = (.ok b, p') := hrun
  rw [h.fails ht] at hrun
  exact hf p h b p' hrun

theorem bind_unmoved {m : Parse α} {a : α} {f : α → Parse γ}
    (hm : ∀ p, w.Stuck p → m.run p = (.ok a, p)) (hf : w.Stalls lost (f a)) :
    w.Stalls lost (m >>= f) := by
  intro p h b p' hrun
  rw [run_bind_ok (hm p h)] at hrun
  exact hf p h b p' hrun

end Stalls

/-! ### Loops -/

theorem repeatWhile_none {more : Parser → Bool} {item : Parse α} (h : more p = false) (n : Nat) :
    (repeatWhile more item n).run p = (.ok [], p) := by
  cases n with
  | zero => rfl
  | succ n =>
    change Routine.run (if more p = true then _ else (Pure.pure [] : Parse (List α))) p = _
    rw [if_neg (ne_true_of_eq_false h)]
    rfl

theorem repeatWhile_some {more : Parser → Bool} {item : Parse α} (h : more p = true) (n : Nat) :
    (repeatWhile more item (n + 1)).run p = (do
      let a ← item
      let as ← repeatWhile more item n
      return a :: as : Parse (List α)).run p := by
  change Routine.run (if more p = true then _ else (Pure.pure [] : Parse (List α))) p = _
  rw [if_pos h]

theorem many_none {test : Token → Bool} {item : Parse α} (h : test p.current = false) :
    (many test item).run p = (.ok [], p) := by
  have hmore : (fun q : Parser => test q.current) p = false := h
  exact repeatWhile_none hmore _

theorem many_some {test : Token → Bool} {item : Parse α} {ts : List Token} (h : test p.current = true)
    (hts : p.ahead = p.current :: ts) :
    (many test item).run p = (do
      let a ← item
      let as ← repeatWhile (fun q => test q.current) item ts.length
      return a :: as : Parse (List α)).run p := by
  have hmore : (fun q : Parser => test q.current) p = true := h
  change (repeatWhile (fun q => test q.current) item p.ahead.length).run p = _
  rw [hts, List.length_cons, repeatWhile_some hmore]

namespace Follows

variable {more : Parser → Bool} {item : Parse α} {item' : Parse β}

/-- A loop whose rounds have size 2 at least, as many as the tokens ahead allow. -/
protected theorem repeatWhile {Q : α → β → Prop} (Inv : Parser → Prop)
    (hlost : ∀ p, lost p → more p = false)
    (hmore : ∀ p q, w.Beside p q → Inv p → lost p ∨ more p = more q)
    (hsize : ∀ p : Parser, p.last.isEnd = true → more p = true → 1 ≤ total p.ahead)
    (hitem : ∀ p q, w.Beside p q → Inv p → more p = true → more q = true →
      w.Follows lost 2 (fun a b p' => Q a b ∧ Inv p') item item' p q)
    {rounds rounds' : Nat} (h : w.Beside p q) (hp : Inv p) (hleft : total p.ahead ≤ 2 * rounds)
    (hright : total q.ahead ≤ 2 * rounds') :
    w.Follows lost 0 (fun as bs p' => List.Forall₂ Q as bs ∧ Inv p') (repeatWhile more item rounds)
      (repeatWhile more item' rounds') p q := by
  have hstop : ∀ {rounds rounds' : Nat} {p q : Parser}, w.Beside p q → Inv p → more p = false →
      w.Follows lost 0 (fun as bs p' => List.Forall₂ Q as bs ∧ Inv p')
        (repeatWhile more item rounds) (repeatWhile more item' rounds') p q := by
    intro rounds rounds' p q h hp hfalse as p' hrun
    rw [repeatWhile_none hfalse] at hrun
    cases hrun
    rcases hmore p q h hp with hlost | hagree
    · exact Or.inl hlost
    · exact Or.inr ⟨[], q, repeatWhile_none (hagree ▸ hfalse) _,
        ⟨h, Nat.le_refl _, Nat.le_refl _⟩, .nil, hp⟩
  induction rounds generalizing rounds' p q with
  | zero =>
    refine hstop h hp ?_
    cases hmorep : more p with
    | false => rfl
    | true =>
      have := hsize p h.ended hmorep
      omega
  | succ rounds ih =>
    cases hmorep : more p with
    | false => exact hstop h hp hmorep
    | true =>
      have hmoreq : more q = true := by
        rcases hmore p q h hp with hl | hagree
        · rw [hlost p hl] at hmorep
          cases hmorep
        · exact hagree ▸ hmorep
      have hpositive := hsize q h.ended_right hmoreq
      obtain ⟨rounds', rfl⟩ : ∃ k, rounds' = k + 1 := ⟨rounds' - 1, by omega⟩
      intro as p' hrun
      rw [repeatWhile_some hmorep] at hrun
      rw [repeatWhile_some hmoreq]
      obtain ⟨a, p₁, hitemp, hrun⟩ := bind_ok hrun
      obtain ⟨as, p₂, hrestp, hrun⟩ := bind_ok hrun
      cases hrun
      rcases hitem p q h hp hmorep hmoreq a p₁ hitemp with hl | ⟨b, q₁, hitemq, hreached, hab, hp₁⟩
      · rw [repeatWhile_none (hlost p₁ hl)] at hrestp
        cases hrestp
        exact Or.inl hl
      · have hleft₁ := hreached.left
        have hright₁ := hreached.right
        have hfuel : total p₁.ahead ≤ 2 * rounds := by omega
        have hfuel' : total q₁.ahead ≤ 2 * rounds' := by omega
        rcases ih hreached.beside hp₁ hfuel hfuel' as p' hrestp with
          hl | ⟨bs, q₂, hrestq, hreached', hasbs, hp'⟩
        · exact Or.inl hl
        · have hleft₂ := hreached'.left
          have hright₂ := hreached'.right
          refine Or.inr ⟨b :: bs, q₂, ?_, ⟨hreached'.beside, by omega, by omega⟩, .cons hab hasbs, hp'⟩
          rw [run_bind_ok hitemq, run_bind_ok hrestq]
          rfl

section Operators

variable {test : Token → Bool} {Q : α → β → Prop} (Inv : Parser → Prop)
  (hlost : ∀ p, lost p → w.Stuck p) (ht : Blind test)
  (hoperator : ∀ t, test t = true → t.kind = .operator)
  (hitem : ∀ p q, w.Beside p q → Inv p → test p.current = true → p.current.Alike q.current →
    w.Follows lost 2 (fun a b p' => Q a b ∧ Inv p') item item' p q)

include hlost ht hoperator hitem

/-- A loop that goes on at an operator which neither a brace nor `<` begins. -/
theorem many_rounds {rounds rounds' : Nat} (h : w.Beside p q) (hp : Inv p)
    (hleft : total p.ahead ≤ 2 * rounds) (hright : total q.ahead ≤ 2 * rounds') :
    w.Follows lost 0 (fun as bs p' => List.Forall₂ Q as bs ∧ Inv p')
      (repeatWhile (fun p => test p.current) item rounds)
      (repeatWhile (fun p => test p.current) item' rounds') p q :=
  Follows.repeatWhile Inv (fun _ hl => (hlost _ hl).fails ht) (fun _ _ h _ => Or.inr (h.agree ht))
    (fun _ hlast hmore => Parser.total_of_operator hlast (hoperator _ hmore))
    (fun p q h hp hmore _ => hitem p q h hp hmore (h.alike_of_test ht hmore)) h hp hleft hright

theorem many (h : w.Beside p q) (hp : Inv p) :
    w.Follows lost 0 (fun as bs p' => List.Forall₂ Q as bs ∧ Inv p') (Parse.many test item)
      (Parse.many test item') p q :=
  many_rounds Inv hlost ht hoperator hitem h hp (total_le p.ahead) (total_le q.ahead)

/-- Such a loop in front of an operator at which it goes on. -/
theorem many_first (h : w.Beside p q) (hfirst : test p.current = true)
    (hround : w.Follows lost 2 (fun a b p' => Q a b ∧ Inv p') item item' p q) :
    w.Follows lost 2 (fun as bs p' => as ≠ [] ∧ bs ≠ [] ∧ Inv p') (Parse.many test item)
      (Parse.many test item') p q := by
  have ha := h.alike_of_test ht hfirst
  have hend := not_end_of_operator (hoperator _ hfirst)
  obtain ⟨ts, hts⟩ := Parser.ahead_of_current h.ended hend
  obtain ⟨us, hus⟩ := Parser.ahead_of_current h.ended_right (ha.isEnd_eq ▸ hend)
  have hleft := total_le p.ahead
  have hright := total_le q.ahead
  refine elsewhere ?_ (many_some hfirst hts) (many_some ((h.agree ht).symm.trans hfirst) hus)
    (Nat.le_refl _) (Nat.le_refl _)
  refine hround.bind_reached (n := 0) (fun a b p₁ q₁ h₁ hab => ?_) ?_
  · have hleft₁ := h₁.left
    have hright₁ := h₁.right
    have hfuel : total p₁.ahead ≤ 2 * ts.length := by
      rw [hts, List.length_cons] at hleft
      rw [hts] at hleft₁
      omega
    have hfuel' : total q₁.ahead ≤ 2 * us.length := by
      rw [hus, List.length_cons] at hright
      rw [hus] at hright₁
      omega
    have hrest := many_rounds Inv hlost ht hoperator hitem h₁.beside hab.2 hfuel hfuel'
    refine hrest.bind_reached (n := 0) (fun as bs p₂ q₂ h₂ hrest => pure h₂.beside ?_) ?_
    · exact ⟨List.cons_ne_nil _ _, List.cons_ne_nil _ _, hrest.2⟩
    · intro as p' hl c p'' hrun
      cases hrun
      exact hl
  · intro a p' hl c p'' hrun
    have hstop : (fun q : Parser => test q.current) p' = false := (hlost p' hl).fails ht
    rw [run_bind_ok (repeatWhile_none hstop _)] at hrun
    cases hrun
    exact hl

end Operators

end Follows

end Respelling

end EventRules
