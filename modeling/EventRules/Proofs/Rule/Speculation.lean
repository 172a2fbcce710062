import EventRules.Proofs.Rule.Replay

/-!
# Speculation

An expression that is read again, from the mark where it began, is the same (`speculation_traceless`):
each construct replays when the steps for nested expressions do, by the order of its tokens. What an
answer has passed is balanced, and tells a range in parentheses from an expression in parentheses, so
that only an error depends on the guesses of the parser.
-/

namespace EventRules
set_option autoImplicit false

open Token Routine Parse Respelling

variable {nested nested' : Parse Expr} {back ts us : List Token} {P S : List Token → Prop} {d d' n : Nat}
  {p q : Parser} {t : Token} {s : String}

/-- What is known of the tokens of an expression. -/
structure Whole (ts : List Token) : Prop where
  positive : 1 ≤ total ts
  balanced : Balanced 1 ts

theorem Whole.group {opening closing : Token} (ho : opening.kind = .bracket ∧ opening.opensGroup = true)
    (hts : Balanced 2 ts) (hpos : 1 ≤ total ts)
    (hc : closing.kind = .bracket ∧ closing.opensGroup = false) :
    Whole (opening :: ts ++ [closing]) := by
  refine ⟨?_, Balanced.group (Nat.le_refl 1) ho hts hc⟩
  rw [total_append, total_cons]
  omega

theorem Whole.append (hts : Whole ts) (hus : Balanced 1 us) : Whole (ts ++ us) := by
  have hpos := hts.positive
  refine ⟨?_, hts.balanced.append hus⟩
  rw [total_append]
  omega

theorem Whole.behind (hts : Balanced 1 ts) (hus : Whole us) : Whole (ts ++ us) := by
  have hpos := hus.positive
  refine ⟨?_, hts.append hus.balanced⟩
  rw [total_append]
  omega

/-- The steps for nested expressions replay where the depths suffice. -/
def NestedReplays (d d' : Nat) (nested nested' : Parse Expr) : Prop :=
  ∀ back P p, Room d d' P p → opensArguments back = false → Replays back P Whole nested nested' p

theorem NestedReplays.within (hn : NestedReplays d d' nested nested') (table : Precedence)
    (h : Room d d' P p) (hback : opensArguments back = false) :
    Replays back P Whole (withTable table nested) (withTable table nested') p :=
  .withTable (hn back P _ h.same hback)

/-! ### Literals and groups -/

theorem scalar_replays (hlast : p.last.isEnd = true) (hs : p.current.isScalar = true) :
    Replays back P Whole scalar scalar p := by
  obtain ⟨hbracket, hoperator, hend⟩ : p.current.kind ≠ .bracket ∧ p.current.kind ≠ .operator ∧
      p.current.kind ≠ .endOfInput := by
    refine ⟨?_, ?_, ?_⟩ <;> intro hk <;> simp [isScalar, hk] at hs
  refine (Replays.pass hlast (not_end_of_kind hend) fun token q _ => ?_).1
  refine (Replays.ofExcept (S := (· = [])) (literalOf token) rfl).bind fun value q' ts _ hts => ?_
  subst hts
  refine Replays.pure ⟨?_, Balanced.plain (Or.inl hs) 1⟩
  have hsize := size_of_kind hbracket hoperator
  rw [List.append_nil, List.append_nil, total_cons]
  omega

theorem range_replays (hn : NestedReplays d d' nested nested') (h : Room (d + 1) (d' + 1) P p)
    (ho : p.current.isBracket s = true) (hs : s = "(" ∨ s = "[" ∨ s = "\x7b") :
    Replays back P (fun ts => Whole ts ∧ ∀ rest, startsRange (ts ++ rest) = true) (range nested)
      (range nested') p := by
  refine (Replays.pass h.ended (not_end_of_bracket ho) fun opening p₁ hopening => ?_).1
  have h₁ := h.behind hopening
  have hback := opens_nothing_behind_bracket ho back
  refine (hn.within .arithmetic h₁ hback).bind fun lower p₂ ls hls hlower => ?_
  have h₂ := h₁.after hls
  refine (Replays.operator "," h₂.ended).bind fun comma p₃ cs hcs hcomma => ?_
  obtain ⟨rfl, hcomma⟩ := hcomma
  have h₃ := h₂.after hcs
  have hback := opens_nothing_behind_operator hcomma (by decide) (ls.reverse ++ p.current :: back)
  refine (hn.within .arithmetic h₃ hback).bind fun upper p₄ us hus hupper => ?_
  have hclosing : ∀ t : Token, (t.isBracket ")" || t.isBracket "]") = true →
      t.isEnd = false ∧ t.kind = .bracket ∧ t.opensGroup = false := by
    intro t ht
    rcases Bool.or_eq_true_iff.mp ht with ht | ht
    · exact ⟨not_end_of_bracket ht, closes_group ht (Or.inl rfl)⟩
    · exact ⟨not_end_of_bracket ht, closes_group ht (Or.inr (Or.inl rfl))⟩
  refine (Replays.token (takes_closing _ opening) (h₃.after hus).ended fun ht => (hclosing _ ht).1).bind
    fun closing p₅ vs hvs hc => Replays.pure ?_
  obtain ⟨rfl, hc⟩ := hc
  have hc := (hclosing _ hc).2
  have ho := opensGroup_of_isBracket ho hs
  have hinside : Balanced 2 (ls ++ p₂.current :: us) :=
    (hlower.balanced.mono (by omega)).append
      (.cons (.operator (operator_of_isOperator hcomma).1 fun _ => Nat.le_refl 2)
        (hupper.balanced.mono (by omega)))
  have hpos := hlower.positive
  have hall : [p.current] ++ (ls ++ ([p₂.current] ++ (us ++ ([p₄.current] ++ [])))) =
      p.current :: (ls ++ p₂.current :: us) ++ [p₄.current] := by simp
  refine ⟨?_, fun rest => ?_⟩
  · rw [hall]
    refine .group ho hinside ?_ hc
    rw [total_append]
    omega
  · have hrange := Balanced.startsRange ho hlower.balanced hcomma hupper.balanced hc rest
    rw [hall]
    simpa using hrange

/-- A comparison with the value under test. -/
theorem comparison_replays (hn : NestedReplays d d' nested nested') (op : CompareOp)
    (h : Room (d + 1) (d' + 1) P p) (ho : p.current.isOperator s = true) (hs : s ≠ "!" ∧ s ≠ ",") :
    Replays back P Whole (comparison nested op) (comparison nested' op) p := by
  obtain ⟨hk, htext⟩ := operator_of_isOperator ho
  refine (Replays.pass h.ended (not_end_of_operator hk) fun sign p₁ hsign => ?_).1
  have hback := opens_nothing_behind_operator ho hs.1 back
  refine Replays.sees_bind blind_end (fun _ => Replays.fail rfl rfl) fun _ => ?_
  refine (hn.within .arithmetic (h.behind hsign) hback).bind fun e p₂ ts hts he => Replays.pure ?_
  rw [List.append_nil]
  exact .behind (.operator hk fun hcomma => absurd (htext.symm.trans hcomma) hs.2) he

/-! ### Arrows -/

theorem stage_replays (hn : NestedReplays d d' nested nested') (h : Room (d + 1) (d' + 1) P p) :
    Replays back P Whole (stage nested) (stage nested') p := by
  refine (Replays.bracket "\x7b" h.ended).bind fun opening p₁ os hos ho => ?_
  obtain ⟨rfl, ho⟩ := ho
  have h₁ := h.behind hos
  have hback := opens_nothing_behind_bracket ho back
  refine (hn.within .standard h₁ hback).bind fun body p₂ ts hts hbody => ?_
  refine (Replays.closing "\x7d" opening (h₁.after hts).ended).bind fun closing p₃ cs hcs hc =>
    Replays.pure ?_
  obtain ⟨rfl, hc⟩ := hc
  have hgroup := Whole.group (opensGroup_of_isBracket ho (Or.inr (Or.inr rfl))) (hbody.balanced.mono (by omega))
    hbody.positive (closes_group hc (Or.inr (Or.inr rfl)))
  simpa using hgroup

theorem arrow_replays (hn : NestedReplays d d' nested nested') (h : Room (d + 1) (d' + 1) P p) :
    Replays back P Whole (arrow nested) (arrow nested') p := by
  have hitem : ∀ back P p, Room (d + 1) (d' + 1) P p → p.current.isOperator "->" = true →
      Replays back P (fun ts => 2 ≤ total ts ∧ Balanced 1 ts) (do let _ ← advance; stage nested)
        (do let _ ← advance; stage nested') p ∧ Led (do let _ ← advance; stage nested) p := by
    intro back P p h harrow
    obtain ⟨hk, htext⟩ := operator_of_isOperator harrow
    refine Replays.pass h.ended (not_end_of_operator hk) fun sign p₁ hsign => ?_
    refine (stage_replays hn (h.after hsign)).weaken (fun _ h => h) fun ts hts => ⟨?_, ?_⟩
    · have hpos := hts.positive
      have hsize := size_of_operator hk
      rw [total_append, total_cons]
      omega
    · exact .cons (.operator hk fun hcomma => by simp [htext] at hcomma) hts.balanced
  refine (stage_replays hn h).bind fun first p₁ ss hss hfirst => ?_
  refine (Replays.many (blind_operator (by decide)) (fun t ht => (operator_of_isOperator ht).1)
    (Balanced.nil 1) (fun ts us => .append) hitem (h.after hss)).bind fun others p₂ os _ hos =>
      Replays.pure ?_
  rw [List.append_nil]
  exact hfirst.append hos

/-! ### Calls -/

theorem marker_replays (name : Token) (hlast : p.last.isEnd = true) :
    Replays back P (Balanced 1) (strictMarker name) (strictMarker name) p := by
  let isMarked (q : Parser) : Bool := q.current.isOperator "!" &&
    q.current.position.offset == name.endOffset && (q.peek 1).isBracket "("
  have hagree : ∀ us, Unfolds p.ahead us → isMarked (p.before us) = isMarked p := by
    intro us hus
    simp only [isMarked]
    rcases hus.current with ⟨heq, hnext⟩ | ⟨hangle, hbrace, -⟩
    · rw [heq, hnext _ (blind_bracket (by decide))]
    · have hblind := blind_operator (s := "!") (by decide)
      simp only [hblind.angle _ hangle, hblind.brace _ hbrace, Bool.false_and]
  have hrun : ∀ q : Parser, (strictMarker name).run q = (if isMarked q = true then
      (do let _ ← advance; return true) else return false : Parse Bool).run q := fun _ => rfl
  cases hmarked : isMarked p with
  | false =>
    refine (Replays.pure (a := false) (Balanced.nil 1)).congr ?_ fun us hus _ => ?_
    · rw [hrun, hmarked]
      rfl
    · rw [hrun, hagree us hus, hmarked]
      rfl
  | true =>
    have hmark : p.current.isOperator "!" = true := by
      simp only [isMarked, Bool.and_eq_true] at hmarked
      exact hmarked.1.1
    obtain ⟨hk, htext⟩ := operator_of_isOperator hmark
    have hpass : Replays back P (Balanced 1) (do let _ ← advance; return true)
        (do let _ ← advance; return true) p := by
      refine (Replays.pass hlast (not_end_of_operator hk) fun _ _ _ => Replays.pure ?_).1
      exact .operator hk fun hcomma => by simp [htext] at hcomma
    refine hpass.congr ?_ fun us hus _ => ?_
    · rw [hrun, hmarked]
      rfl
    · rw [hrun, hagree us hus, hmarked]
      rfl

theorem arguments_replays (hn : NestedReplays d d' nested nested') (h : Room (d + 1) (d' + 1) P p)
    (name : Token) (isStrict : Bool) :
    Replays back P (Balanced 1) (arguments nested name isStrict) (arguments nested' name isStrict) p := by
  refine (Replays.bracket "(" h.ended).bind fun opening p₁ os hos ho => ?_
  obtain ⟨rfl, ho⟩ := ho
  have h₁ := h.behind hos
  have hclose : ∀ {back us : List Token} {P : List Token → Prop} {q : Parser} (args : List Expr),
      q.last.isEnd = true → Balanced 2 us →
      Replays back P (fun vs => Balanced 1 ([p.current] ++ (us ++ vs)))
        (do
          let _ ← expectClosing (·.isBracket ")") opening
          return (⟨name, isStrict, args⟩ : Call Expr))
        (do
          let _ ← expectClosing (·.isBracket ")") opening
          return (⟨name, isStrict, args⟩ : Call Expr)) q := by
    intro back us P q args hq hus
    refine (Replays.closing ")" opening hq).bind fun closing q' cs _ hc => Replays.pure ?_
    obtain ⟨rfl, hc⟩ := hc
    have hgroup := Balanced.group (Nat.le_refl 1) (opensGroup_of_isBracket ho (Or.inl rfl)) hus (closes_group hc (Or.inl rfl))
    simpa using hgroup
  refine Replays.sees_bind (blind_bracket (by decide)) (fun _ => ?_) fun _ => ?_
  · exact hclose [] h₁.ended (.nil 2)
  · have hitem : ∀ back P p, Room d d' P p → p.current.isOperator "," = true →
        Replays back P (fun ts => 2 ≤ total ts ∧ Balanced 2 ts)
          (do let _ ← advance; withTable .standard nested)
          (do let _ ← advance; withTable .standard nested') p ∧
        Led (do let _ ← advance; withTable .standard nested) p := by
      intro back P p h hcomma
      obtain ⟨hk, htext⟩ := operator_of_isOperator hcomma
      refine Replays.pass h.ended (not_end_of_operator hk) fun sign p₁ hsign => ?_
      have hback := opens_nothing_behind_operator hcomma (by decide) back
      refine (hn.within .standard (h.after hsign) hback).weaken (fun _ h => h) fun ts hts => ⟨?_, ?_⟩
      · have hsize := size_of_other_operator hcomma (by decide)
        rw [total_append, total_cons]
        omega
      · exact .cons (.operator hk fun _ => Nat.le_refl 2) (hts.balanced.mono (by omega))
    have hback := opens_nothing_behind_bracket ho back
    refine (hn.within .standard h₁ hback).bind fun first p₂ fs hfs hfirst => ?_
    refine (Replays.many (blind_operator (by decide)) (fun t ht => (operator_of_isOperator ht).1)
      (Balanced.nil 2) (fun ts us => .append) hitem (h₁.after hfs)).bind fun others p₃ os hos' hothers => ?_
    have hinside := (hfirst.balanced.mono (by omega : 1 ≤ 2)).append hothers
    have hlast := ((h₁.after hfs).after hos').ended
    exact (hclose (first :: others) hlast hinside).weaken (fun _ h => h) fun vs hvs => by simpa using hvs

theorem chainElement_replays (hn : NestedReplays d d' nested nested') (h : Room (d + 1) (d' + 1) P p)
    (hpoint : p.current.isOperator "." = true) :
    Replays back P (fun ts => 2 ≤ total ts ∧ Balanced 1 ts) (chainElement nested) (chainElement nested')
      p ∧ Led (chainElement nested) p := by
  obtain ⟨hk, htext⟩ := operator_of_isOperator hpoint
  refine Replays.pass h.ended (not_end_of_operator hk) fun _ p₁ hpassed => ?_
  have h₁ := h.after hpassed
  have hcurrent : ∀ f : Token → Parse (Call Expr),
      (Parse.current >>= f).run p₁ = (f p₁.current).run p₁ := fun _ => rfl
  cases hname : p₁.current.isName with
  | false =>
    refine Replays.fail (e := .chainElementMissing p₁.current) ?_ ?_
    · rw [hcurrent, hname]
      rfl
    · rw [hcurrent, hname]
      rfl
  | true =>
    refine Replays.current_bind (fun us hus => hus.kept blind_name hname) ?_
    simp only [hname, Bool.not_true, Bool.false_eq_true, if_false]
    refine (Replays.pass h₁.ended (not_end_of_name hname) fun _ p₂ hpassed' => ?_).1
    have h₂ := h₁.after hpassed'
    refine (marker_replays p₁.current h₂.ended).bind fun strict p₃ ms hms hmark => ?_
    refine Replays.sees_bind (blind_bracket (by decide)) (fun _ => ?_) fun _ => Replays.fail rfl rfl
    refine (arguments_replays hn (h₂.after hms) _ strict).weaken (fun _ h => h) fun ts hts => ⟨?_, ?_⟩
    · have hsize := size_of_other_operator hpoint (by decide)
      rw [total_append, total_cons]
      omega
    · exact .cons (.operator hk fun hcomma => by simp [htext] at hcomma)
        (.cons (.plain (Or.inr hname) 1) (hmark.append hts))

/-- What a name begins: a variable, a call or a chain of calls. -/
theorem named_replays (hn : NestedReplays d d' nested nested') (h : Room (d + 1) (d' + 1) P p)
    (hname : p.current.isName = true) : Replays back P Whole (named nested) (named nested') p := by
  have hk : p.current.kind = .name := by simpa [isName] using hname
  have hwhole : Whole [p.current] := by
    refine ⟨?_, .plain (Or.inr hname) 1⟩
    have hsize := size_of_kind (t := p.current) (by simp [hk]) (by simp [hk])
    rw [total_cons]
    omega
  refine (Replays.pass h.ended (not_end_of_name hname) fun name p₁ hpassed => ?_).1
  have h₁ := h.after hpassed
  refine (marker_replays name h₁.ended).bind fun mark p₂ ms hms hmark => ?_
  have h₂ := h₁.after hms
  refine Replays.sees_bind (blind_bracket (by decide)) (fun _ => ?_) fun _ => ?_
  · refine (arguments_replays hn h₂ name mark).bind fun first p₃ fs hfs hfirst => ?_
    refine (Replays.many (S := Balanced 1) (blind_operator (by decide))
      (fun t ht => (operator_of_isOperator ht).1) (Balanced.nil 1) (fun ts us => .append)
      (fun back P p h hpoint => chainElement_replays hn h hpoint) (h₂.after hfs)).bind
        fun others p₄ os _ hothers => Replays.pure ?_
    rw [List.append_nil]
    exact hwhole.append (hmark.append (hfirst.append hothers))
  · refine Replays.pure ?_
    rw [List.append_nil]
    exact hwhole.append hmark

/-! ### Parentheses -/

theorem parameters_balanced (h : ∀ t ∈ ts, t.isName = true ∨ t.isOperator "," = true) :
    Balanced 2 ts := by
  induction ts with
  | nil => exact .nil 2
  | cons t ts ih =>
    have hts := ih fun u hu => h u (List.mem_cons_of_mem t hu)
    rcases h t List.mem_cons_self with ht | ht
    · exact .cons (.plain (Or.inr ht) 2) hts
    · exact .cons (.operator (operator_of_isOperator ht).1 fun _ => Nat.le_refl 2) hts

/-- The tokens up to the arrow of an anonymous function. -/
theorem lambdaHead_passed {ts ps : List Token} (h : lambdaHead? ts = some (ps, n)) :
    ∃ t head rest, ts = t :: head ++ rest ∧ (t :: head).length = n ∧ Balanced 1 (t :: head) ∧
      (∀ u ∈ t :: head, u.isEnd = false) ∧
      ∀ back, opensArguments ((t :: head).reverse ++ back) = false := by
  obtain ⟨o, inner, c, a, rest, rfl, rfl, ho, hinner, hc, ha⟩ := lambdaHead_split h
  obtain ⟨hk, htext⟩ := operator_of_isOperator ha
  have hgroup := Balanced.group (Nat.le_refl 1) (opensGroup_of_isBracket ho (Or.inl rfl)) (parameters_balanced hinner)
    (closes_group hc (Or.inl rfl))
  have hsign : Balanced 1 [a] := .operator hk fun hcomma => by simp [htext] at hcomma
  refine ⟨o, inner ++ [c] ++ [a], rest, by simp, by simp, hgroup.append hsign, fun u hu => ?_,
    fun back => ?_⟩
  · rcases List.mem_cons.mp hu with rfl | hu
    · exact not_end_of_bracket ho
    rcases List.mem_append.mp hu with hu | hu
    · rcases List.mem_append.mp hu with hu | hu
      · rcases hinner u hu with hu | hu
        · exact not_end_of_name hu
        · exact not_end_of_operator (operator_of_isOperator hu).1
      · rw [List.mem_singleton.mp hu]
        exact not_end_of_bracket hc
    · rw [List.mem_singleton.mp hu]
      exact not_end_of_operator hk
  · rw [← List.cons_append, List.reverse_append]
    exact opens_nothing_behind_operator ha (by decide) _

theorem lambda_replays (hn : NestedReplays d d' nested nested') (h : Room (d + 1) (d' + 1) P p)
    {params : List Token} (hhead : lambdaHead? p.ahead = some (params, n)) :
    Replays back P Whole
      (do
        skip n
        let body ← withTable .standard nested
        return Expr.lambda params body)
      (do
        skip n
        let body ← withTable .standard nested'
        return Expr.lambda params body) p := by
  obtain ⟨t, head, rest, hp, hlen, hbalanced, hend, hback⟩ := lambdaHead_passed hhead
  refine (Replays.of_reads hp hend fun _ => .skip hlen hend).bind fun _ p₁ hs hreached hhs => ?_
  subst hhs
  refine (hn.within .standard (h.behind hreached) (hback back)).bind fun body p₂ us _ hbody =>
    Replays.pure ?_
  rw [List.append_nil]
  exact .behind hbalanced hbody

/-- An expression in parentheses. -/
theorem enclosed_replays (hn : NestedReplays d d' nested nested') (h : Room (d + 1) (d' + 1) P p)
    (ho : p.current.isBracket "(" = true) :
    Replays back P (fun ts => Whole ts ∧ ∀ rest, startsRange (ts ++ rest) = false)
      (do
        let opening ← advance
        let inner ← nested
        let _ ← expectClosing (·.isBracket ")") opening
        return inner)
      (do
        let opening ← advance
        let inner ← nested'
        let _ ← expectClosing (·.isBracket ")") opening
        return inner) p := by
  refine (Replays.pass h.ended (not_end_of_bracket ho) fun opening p₁ hpassed => ?_).1
  have h₁ := h.behind hpassed
  have hback := opens_nothing_behind_bracket ho back
  refine (hn _ _ p₁ h₁ hback).bind fun inner p₂ ts hts hinner => ?_
  refine (Replays.closing ")" opening (h₁.after hts).ended).bind fun closing p₃ cs _ hc =>
    Replays.pure ?_
  obtain ⟨rfl, hc⟩ := hc
  have ho := opensGroup_of_isBracket ho (Or.inl rfl)
  have hc := closes_group hc (Or.inl rfl)
  have hall : [p.current] ++ (ts ++ ([p₂.current] ++ [])) = p.current :: ts ++ [p₂.current] := by simp
  rw [hall]
  refine ⟨.group ho (hinner.balanced.mono (by omega)) hinner.positive hc, fun rest => ?_⟩
  have hrange := Balanced.starts_no_range ho hinner.balanced hc rest
  simpa using hrange

theorem parenthesised_replays (hn : NestedReplays d d' nested nested') (h : Room (d + 1) (d' + 1) P p)
    (ho : p.current.isBracket "(" = true) (hback : opensArguments back = false) :
    Replays back P Whole (parenthesised nested) (parenthesised nested') p := by
  have hlambda : ∀ {nested : Parse Expr} {q : Parser} {params : List Token} {n : Nat},
      lambdaHead? q.ahead = some (params, n) → (parenthesised nested).run q =
        (do
          skip n
          let body ← withTable .standard nested
          return Expr.lambda params body : Parse Expr).run q := by
    intro nested q params n hhead
    rw [parenthesised, run_bind_ok (run_state q), hhead]
  have hgroup : ∀ {nested : Parse Expr} {q : Parser}, lambdaHead? q.ahead = none →
      (parenthesised nested).run q = (if startsRange q.ahead = true then range nested else do
        let opening ← advance
        let inner ← nested
        let _ ← expectClosing (·.isBracket ")") opening
        return inner : Parse Expr).run q := by
    intro nested q hhead
    rw [parenthesised, run_bind_ok (run_state q), hhead]
  cases hhead : lambdaHead? p.ahead with
  | some head =>
    obtain ⟨params, n⟩ := head
    refine (lambda_replays hn h hhead).congr (hlambda hhead) fun us hus _ => hlambda ?_
    exact hus.lambdaHead_eq.symm.trans hhead
  | none =>
    have hnone : ∀ us, Unfolds p.ahead us → lambdaHead? (p.before us).ahead = none :=
      fun us hus => hus.lambdaHead_eq.symm.trans hhead
    cases hguess : startsRange p.ahead with
    | true =>
      refine Replays.congr_guess ho h.ended hback hguess (range_replays hn h ho (Or.inl rfl)) ?_
        fun us hus hrange => ?_
      · rw [hgroup hhead, if_pos hguess]
      · rw [hgroup (hnone us hus), Parser.before_ahead, if_pos hrange]
    | false =>
      refine Replays.congr_guess ho h.ended hback hguess (enclosed_replays hn h ho) ?_
        fun us hus hrange => ?_
      · rw [hgroup hhead, if_neg (ne_true_of_eq_false hguess)]
      · rw [hgroup (hnone us hus), Parser.before_ahead, if_neg (ne_true_of_eq_false hrange)]

/-! ### Operands -/

theorem symbolic_run (token : Token) (hend : shorthandEnd? p.ahead = none) :
    (symbolic nested token).run p =
      ((CompareOp.ofSymbol? token.text).elim (unexpected .expression) (comparison nested)).run p := by
  rw [symbolic, run_bind_ok (run_state p), hend]
  cases CompareOp.ofSymbol? token.text <;> rfl

theorem symbolic_replays (hn : NestedReplays d d' nested nested') (h : Room (d + 1) (d' + 1) P p)
    (hk : p.current.kind = .operator) (hend : shorthandEnd? p.ahead = none) :
    Replays back P Whole (symbolic nested p.current) (symbolic nested' p.current) p := by
  cases hop : CompareOp.ofSymbol? p.current.text with
  | none =>
    refine Replays.fail (e := .unexpected .expression p.current) ?_ ?_
    · rw [symbolic_run _ hend, hop]
      rfl
    · rw [symbolic_run _ hend, hop]
      rfl
  | some op =>
    have hsign : p.current.text ≠ "!" ∧ p.current.text ≠ "," := by
      rw [← CompareOp.symbol_ofSymbol hop]
      cases op <;> decide
    have hcomparison : Replays back P Whole (comparison nested op) (comparison nested' op) p :=
      comparison_replays hn op h (by simp [isOperator, hk]) hsign
    refine hcomparison.congr ?_ fun us hus _ => ?_
    · rw [symbolic_run _ hend, hop, Option.elim_some]
    · rw [symbolic_run _ (hus.kept_of_none hend).2, hop, Option.elim_some]

theorem primary_of_operator (hk : p.current.kind = .operator) :
    (primary nested).run p = (symbolic nested p.current).run p := by
  have hcurrent : Parse.current.run p = (.ok p.current, p) := rfl
  rw [primary, run_bind_ok hcurrent]
  simp only [hk]

theorem primary_of_brace (hb : p.current.isBracket "\x7b" = true) :
    (primary nested).run p = (arrow nested).run p := by
  have hcurrent : Parse.current.run p = (.ok p.current, p) := rfl
  obtain ⟨hk, htext⟩ := bracket_of_isBracket hb
  rw [primary, run_bind_ok hcurrent]
  simp only [hk, htext]
  rfl

/-- A shorthand is read as its arrow, and its arrow is read when it is read again. -/
theorem shorthand_replays (hn : NestedReplays d d' nested nested') (h : Room (d + 1) (d' + 1) P p)
    (hend : shorthandEnd? p.ahead = some n) : Replays back P Whole (primary nested) (primary nested') p := by
  obtain ⟨span, rest, hp, hspan, hexpanded⟩ := Parser.expanded_eq hend
  obtain ⟨t, ss, hs, ht⟩ := hspan.begins
  obtain ⟨b, xs, hx, hb⟩ := hspan.expansion_begins
  have hcurrent : p.current = t := by
    rw [hs] at hp
    exact Parser.current_of_ahead hp
  obtain ⟨hk, -⟩ := operator_of_isOperator ht
  have hroom : Room (d + 1) (d' + 1) P (p.before (expandShorthand span ++ rest)) := by
    refine ⟨h.ended, ?_, h.right⟩
    have hle : weight (expandShorthand span ++ rest) ≤ weight p.ahead := by
      rw [hp]
      exact (Unfolds.expand hspan (.refl _)).weight_le
    exact Nat.lt_of_le_of_lt hle h.left
  refine Replays.of_expanded hspan hp (arrow_replays hn hroom) ?_ fun vs hvs => primary_of_brace ?_
  · rw [primary_of_operator (hcurrent ▸ hk), symbolic_of_shorthand hend, hexpanded]
  · have hahead : (p.before (expandShorthand span ++ rest)).current = b := by
      rw [hx]
      rfl
    have hkept : (p.before vs).current = (p.before (expandShorthand span ++ rest)).current := by
      rcases Unfolds.current (p := p.before (expandShorthand span ++ rest)) hvs with ⟨heq, -⟩ | ⟨hangle, -⟩
      · exact heq
      · simp [hahead, isOperator, (bracket_of_isBracket hb).1] at hangle
    rw [hkept, hahead]
    exact hb

theorem primary_replays (hn : NestedReplays d d' nested nested') (h : Room (d + 1) (d' + 1) P p)
    (hback : opensArguments back = false) :
    Replays back P Whole (primary nested) (primary nested') p := by
  cases hend : shorthandEnd? p.ahead with
  | some n => exact shorthand_replays hn h hend
  | none =>
    refine Replays.current_bind (fun us hus => (hus.kept_of_none hend).1) ?_
    cases hkind : p.current.kind with
    | bracket =>
      have hbracket : ∀ {s : String}, p.current.text = s → p.current.isBracket s = true := by
        intro s hs
        simp [isBracket, hkind, hs]
      by_cases hrange : p.current.text = "["
      · simp only [hrange, if_true]
        exact (range_replays hn h (hbracket hrange) (Or.inr (Or.inl rfl))).weaken (fun _ h => h)
          fun _ h => h.1
      by_cases hparen : p.current.text = "("
      · simp only [hparen]
        exact parenthesised_replays hn h (hbracket hparen) hback
      by_cases hbrace : p.current.text = "\x7b"
      · simp only [hbrace]
        exact arrow_replays hn h
      · simp only [hrange, hparen, hbrace, if_false]
        exact Replays.fail rfl rfl
    | operator => exact symbolic_replays hn h hkind hend
    | name => exact named_replays hn h (by simp [isName, hkind])
    | keyword => exact Replays.fail rfl rfl
    | endOfInput => exact Replays.fail rfl rfl
    | _ => exact scalar_replays h.ended (by simp [isScalar, hkind])

theorem opens_nothing_behind_prefixes {symbols : List Token} (h : ∀ t ∈ symbols, t.kind = .operator)
    (hback : opensArguments back = false) : opensArguments (symbols.reverse ++ back) = false := by
  induction symbols generalizing back with
  | nil => exact hback
  | cons t symbols ih =>
    have ht := h t List.mem_cons_self
    rw [List.reverse_cons, List.append_assoc]
    have hback := opens_nothing_behind_prefix ht hback
    exact ih (fun u hu => h u (List.mem_cons_of_mem t hu)) hback

/-- An operand with the unary operators in front of it. -/
theorem operand_replays (hn : NestedReplays d d' nested nested') (h : Room (d + 1) (d' + 1) P p)
    (hback : opensArguments back = false) :
    Replays back P Whole (operand nested) (operand nested') p := by
  have hitem : ∀ back P p, Room (d + 1) (d' + 1) P p → (unaryOp? p.current).isSome = true →
      Replays back P (fun ts => 2 ≤ total ts ∧ Balanced 1 ts ∧ ∀ t ∈ ts, t.kind = .operator) advance
        advance p ∧ Led advance p := by
    intro back P p h hunary
    have hk := operator_of_unary hunary
    have hcomma : p.current.text ≠ "," := by
      rw [unaryOp?, if_pos hk] at hunary
      obtain ⟨op, hop⟩ := Option.isSome_iff_exists.mp hunary
      rw [← UnaryOp.symbol_ofSymbol hop]
      cases op <;> decide
    refine ⟨(Replays.token takes_any h.ended fun _ => not_end_of_operator hk).weaken (fun _ h => h) ?_,
      .advance p⟩
    rintro ts ⟨rfl, -⟩
    refine ⟨Nat.le_of_eq (size_of_unary hunary).symm, .operator hk fun h => absurd h hcomma, fun t ht => ?_⟩
    rw [List.mem_singleton.mp ht]
    exact hk
  refine (Replays.many blind_unary (fun t => operator_of_unary) ⟨.nil 1, by simp⟩ (fun ts us hts hus => ?_)
    hitem h).bind fun symbols p₁ ss hss hsymbols => ?_
  · refine ⟨hts.1.append hus.1, fun t ht => ?_⟩
    rcases List.mem_append.mp ht with ht | ht
    · exact hts.2 t ht
    · exact hus.2 t ht
  · have hback := opens_nothing_behind_prefixes hsymbols.2 hback
    refine (primary_replays hn (h.after hss) hback).bind fun inner p₂ ts _ hinner => Replays.pure ?_
    rw [List.append_nil]
    exact .behind hsymbols.1 hinner

/-! ### Expressions -/

theorem rank_eq {q : Parser} (hcurrent : p.current = q.current) (htable : p.table = q.table) :
    operatorRank? p = operatorRank? q := by
  rw [operatorRank?, operatorRank?, hcurrent, htable]

/-- A binary operator of a known level and the operand behind it. -/
def linkOf (nested : Parse Expr) (rank : Nat) (op : BinaryOp) : Parse Link := do
  let _ ← advance
  let right ← operand nested
  return ⟨rank, op, right⟩

theorem link_run (nested : Parse Expr) (p : Parser) : (link nested).run p =
    (match BinaryOp.ofSymbol? p.current.text with
    | none => unexpected .binaryOperator
    | some op => linkOf nested ((operatorRank? p).getD 0) op).run p := rfl

theorem linkOf_replays (hn : NestedReplays d d' nested nested') (h : Room (d + 1) (d' + 1) P p)
    (hk : p.current.kind = .operator) {op : BinaryOp}
    (hop : BinaryOp.ofSymbol? p.current.text = some op) (rank : Nat) :
    Replays back P (fun ts => 2 ≤ total ts ∧ Balanced 1 ts) (linkOf nested rank op)
      (linkOf nested' rank op) p ∧ Led (linkOf nested rank op) p := by
  have hsign : p.current.text ≠ "!" ∧ p.current.text ≠ "," := by
    rw [← BinaryOp.symbol_ofSymbol hop]
    cases op with
    | compare c => cases c <;> decide
    | _ => decide
  refine Replays.pass h.ended (not_end_of_operator hk) fun sign p₁ hpassed => ?_
  have hsymbol : p.current.isOperator p.current.text = true := by simp [isOperator, hk]
  have hback := opens_nothing_behind_operator hsymbol hsign.1 back
  refine (operand_replays hn (h.after hpassed) hback).bind fun right p₂ ts _ hright =>
    Replays.pure ⟨?_, ?_⟩
  · have hsize := size_of_operator hk
    have hpos := hright.positive
    rw [List.append_nil, total_append, total_cons]
    omega
  · rw [List.append_nil]
    exact .cons (.operator hk fun h => absurd h hsign.2) hright.balanced

theorem link_replays (hn : NestedReplays d d' nested nested') (h : Room (d + 1) (d' + 1) P p)
    (hk : p.current.kind = .operator) :
    Replays back P (fun ts => 2 ≤ total ts ∧ Balanced 1 ts) (link nested) (link nested') p ∧
      Led (link nested) p := by
  cases hop : BinaryOp.ofSymbol? p.current.text with
  | none =>
    have hfail : ∀ nested : Parse Expr,
        (link nested).run p = (.error (.unexpected .binaryOperator p.current), p) := by
      intro nested
      rw [link_run, hop]
      rfl
    exact ⟨.fail (hfail nested) (hfail nested'), .of_error (hfail nested)⟩
  | some op =>
    have hrun : (link nested).run p = (linkOf nested ((operatorRank? p).getD 0) op).run p := by
      rw [link_run, hop]
    obtain ⟨hlink, hled⟩ : Replays back P (fun ts => 2 ≤ total ts ∧ Balanced 1 ts) _ _ p ∧ Led _ p :=
      linkOf_replays hn h hk hop ((operatorRank? p).getD 0)
    refine ⟨hlink.congr_run hrun fun r q ts us hfirst hreached _ hlast _ => ?_, hled.congr hrun⟩
    have hcurrent := hled.current h.ended (not_end_of_operator hk) hfirst hreached hlast
    rw [link_run, hcurrent, hop, rank_eq hcurrent rfl]

theorem joined_replays (hn : NestedReplays d d' nested nested') :
    NestedReplays (d + 1) (d' + 1) (joined nested) (joined nested') := by
  intro back P p h hback
  have hnone : ∀ (p : Parser) us, Unfolds p.ahead us → (operatorRank? p).isSome = false →
      (operatorRank? (p.before us)).isSome = false := by
    intro p us hus hp
    rcases hus.current with ⟨heq, -⟩ | ⟨-, hbrace, -⟩
    · rw [rank_eq heq rfl, hp]
    · rw [operatorRank?, (bracket_of_isBracket hbrace).1]
      rfl
  refine (operand_replays hn h hback).bind fun first p₁ fs hfs hfirst => ?_
  have hlinks : Replays (fs.reverse ++ back) (fun us => P (fs ++ us)) (Balanced 1) _ _ p₁ :=
    Replays.repeat_ahead (fun p q hcurrent htable => congrArg Option.isSome (rank_eq hcurrent htable))
      (fun p => operator_of_rank) hnone (.nil 1) (fun ts us => .append)
      (fun back P p h hp => link_replays hn h (operator_of_rank hp)) (h.after hfs)
  refine ((hlinks.map (Link.group first)).congr rfl fun _ _ _ => rfl).weaken (fun _ h => h) ?_
  exact fun ls hls => hfirst.append hls

theorem nestedExpression_replays (d d' : Nat) :
    NestedReplays d d' (nestedExpression d) (nestedExpression d') := by
  induction d generalizing d' with
  | zero => exact fun back P p h _ => absurd h.left (Nat.not_lt_zero _)
  | succ d ih =>
    cases d' with
    | zero =>
      intro back P p h hback
      have hnever : Room (d + 1) (0 + 1) (fun _ => False) p := ⟨h.ended, h.left, fun _ h => False.elim h⟩
      exact (joined_replays (ih 0) back _ p hnever hback).of_never fun us hus =>
        absurd (h.right us hus) (Nat.not_lt_zero _)
    | succ d' => exact joined_replays (ih d')

/-- Reading an expression again from where it began gives the same answer, or the same error where the
guesses about parentheses are the same. -/
theorem expression_again (hlast : p.last.isEnd = true) {r : Except ParseError Expr}
    (hrun : expression.run p = (r, q))
    (hguess : (∃ e, r = .ok e) ∨ p.guesses = (q.rewound p.mark).guesses) :
    expression.run (q.rewound p.mark) = (r, q) := by
  have hreplays := nestedExpression_replays (weight p.ahead + 1)
    (weight (q.rewound p.mark).ahead + 1) [] (fun us => us = (q.rewound p.mark).ahead) p
    ⟨hlast, Nat.lt_succ_self _, fun us hus => by rw [hus]; exact Nat.lt_succ_self _⟩ rfl
  obtain ⟨ts, hreached, hanswer, herror⟩ := hreplays r q hrun
  have hrewound := hreached.rewound
  have hagain : expression.run (p.before (ts ++ q.ahead)) =
      (nestedExpression (weight (ts ++ q.ahead) + 1)).run (p.before (ts ++ q.ahead)) := rfl
  rw [hrewound, Parser.before_ahead] at hanswer herror
  rw [hrewound, hagain]
  cases r with
  | ok e => exact (hanswer e rfl).2 q.ahead (.refl _) rfl
  | error e =>
    refine herror e rfl ?_ rfl
    rcases hguess with ⟨e', he⟩ | hguess
    · cases he
    · rw [hrewound] at hguess
      exact hguess

theorem attempt_run_none {α : Type} {m : Parse (Option α)} {p q : Parser} (h : m.run p = (.ok none, q)) :
    (attempt m).run p = (.ok none, q.rewound p.mark) := by
  rw [Routine.run] at h
  rw [Routine.run, attempt, Routine.run, h]

/-- Speculation leaves no trace: an expression is read, the parser goes back to where it was, and the
expression read there once more is the same, or the error is; so it is behind an attempt in vain. An
error has to leave the guesses about parentheses as they were. -/
theorem speculation_traceless (tokens : List Token) (table : Precedence) (place : Nat) {p q : Parser}
    {r : Except ParseError Expr} (hp : p = (Parser.ofTokens tokens table).rewound place)
    (hrun : expression.run p = (r, q))
    (hguess : (∃ e, r = .ok e) ∨ p.guesses = (q.rewound p.mark).guesses) :
    expression.run (q.rewound p.mark) = (r, q) ∧
      ∀ {α : Type} (m : Parse (Option α)), m.run p = (.ok none, q) →
        expression.run ((attempt m).run p).2 = (r, q) := by
  have hlast : p.last.isEnd = true := by
    rw [hp]
    exact Parser.ofTokens_last tokens table
  have hagain := expression_again hlast hrun hguess
  refine ⟨hagain, fun m hm => ?_⟩
  rw [attempt_run_none hm, hagain]

/-- An operand is missing at the end of `return (1,2) & <3> +`, behind a shorthand that stays expanded. -/
theorem speculation_traceless_missing_operand :
    let tokens := [Mark.sign .keyword "return", .br "(", .sign .integer "1", .op ",",
      .sign .integer "2", .br ")", .op "&", .op "<", .sign .integer "3", .op ">", .op "+"].map Mark.token
    let p := (Parser.ofTokens tokens .standard).rewound 1
    let q := (expression.run p).2
    (expression.run p).1.isOk = false ∧ p.ahead.length = 10 ∧ (q.rewound p.mark).ahead.length = 11 ∧
      expression.run (q.rewound p.mark) = expression.run p := by
  intro tokens p q
  refine ⟨by decide +kernel, by decide +kernel, by decide +kernel, ?_⟩
  have hguess : p.guesses = (q.rewound p.mark).guesses := by decide +kernel
  have hrun : expression.run p = ((expression.run p).1, q) := (Prod.eta _).symm
  exact (speculation_traceless tokens .standard 1 rfl hrun (Or.inr hguess)).1.trans hrun.symm

/-- The commas of a shorthand in parentheses make the parser take them for a range. Its arrow has none,
so `(<1,2>)` is read when it is read again. -/
example :
    let tokens := [Mark.br "(", .op "<", .sign .integer "1", .op ",", .sign .integer "2", .op ">",
      .br ")"].map Mark.token
    let p := Parser.ofTokens tokens .standard
    let q := (expression.run p).2
    (expression.run p).1.isOk = false ∧ (expression.run (q.rewound p.mark)).1.isOk = true := by
  decide +kernel

end EventRules
