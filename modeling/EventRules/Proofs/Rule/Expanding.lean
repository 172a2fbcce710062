import EventRules.Proofs.Rule.Atoms

/-!
# Token lists with some shorthands expanded

`Expanded ts us`: the tokens `us` are those of `ts` with some shorthands, which do not overlap, replaced
by their arrows. An arrow has no sign `<` and a shorthand no brace, so a shorthand among `us` is one of
`ts`: what expanding makes of an expanded list is an expanded list.
-/

namespace EventRules
set_option autoImplicit false

open Token Parse

inductive Expanded : List Token → List Token → Prop where
  | nil : Expanded [] []
  | token (t : Token) {ts us : List Token} (h : Expanded ts us) : Expanded (t :: ts) (t :: us)
  | span {span ts us : List Token} (hspan : IsShorthand span) (h : Expanded ts us) :
    Expanded (span ++ ts) (expandShorthand span ++ us)

namespace IsShorthand

variable {span : List Token} {t : Token}

theorem no_brace (h : IsShorthand span) (ht : t ∈ span) : t.isBracket "\x7b" = false := by
  rcases h.operator_or_scalar ht with hk | hk
  · simp [isBracket, hk]
  · cases hkind : t.kind <;> simp [isScalar, isBracket, hkind] at hk ⊢

theorem no_angle (h : IsShorthand span) (ht : t ∈ expandShorthand span) : t.isOperator "<" = false := by
  rcases h.expansion_token ht with hk | hk | hk | hk
  · simp [isOperator, hk]
  · simp [isOperator, (operator_of_isOperator hk).2]
  · simp [isOperator, (operator_of_isOperator hk).2]
  · cases hkind : t.kind <;> simp [isScalar, isOperator, hkind] at hk ⊢

theorem length_le (h : IsShorthand span) : span.length ≤ (expandShorthand span).length := by
  obtain ⟨values, hne, hvalues, hspan⟩ := h
  rw [← hspan.length_eq, ← (expansion_of_shorthand hvalues hspan).length_eq]
  obtain ⟨v, vs, rfl⟩ := List.exists_cons_of_ne_nil hne
  have hlonger : ∀ vs : List Token, ((vs.map fun v => [valueMark v]).flatMap (.op "," :: ·)).length ≤
      ((vs.map equalityMarks).flatMap (.op "->" :: ·)).length := by
    intro vs
    induction vs with
    | nil => exact Nat.le_refl _
    | cons v vs ih =>
      simp only [List.map_cons, List.flatMap_cons, List.length_append, List.length_cons, List.length_nil,
        equalityMarks]
      omega
  have hle := hlonger vs
  simp only [shorthandMarks, listedMarks, arrowMarks, List.map_cons, separated, List.length_append,
    List.length_cons, List.length_nil, equalityMarks]
  omega

end IsShorthand

namespace Expanded

variable {ts us vs xs : List Token}

theorem refl (ts : List Token) : Expanded ts ts := by
  induction ts with
  | nil => exact .nil
  | cons t ts ih => exact .token t ih

theorem append {ts' us' : List Token} (h : Expanded ts us) (h' : Expanded ts' us') :
    Expanded (ts ++ ts') (us ++ us') := by
  induction h with
  | nil => exact h'
  | token t _ ih => exact .token t ih
  | span hspan _ ih =>
    rw [List.append_assoc, List.append_assoc]
    exact .span hspan ih

theorem length_le (h : Expanded ts us) : ts.length ≤ us.length := by
  induction h with
  | nil => exact Nat.le_refl _
  | token t _ ih => exact Nat.succ_le_succ ih
  | span hspan _ ih =>
    have hle := hspan.length_le
    rw [List.length_append, List.length_append]
    omega

theorem of_cons {t : Token} (h : Expanded (t :: ts) us) :
    (∃ us', us = t :: us' ∧ Expanded ts us') ∨
      ∃ span ts' us', t :: ts = span ++ ts' ∧ us = expandShorthand span ++ us' ∧ IsShorthand span ∧
        Expanded ts' us' := by
  generalize hts : t :: ts = xs at h
  cases h with
  | nil => cases hts
  | token t h =>
    cases hts
    exact Or.inl ⟨_, rfl, h⟩
  | span hspan h => exact Or.inr ⟨_, _, _, rfl, rfl, hspan, h⟩

theorem to_cons {t : Token} (h : Expanded ts (t :: us)) :
    (∃ ts', ts = t :: ts' ∧ Expanded ts' us) ∨
      ∃ span ts' us', ts = span ++ ts' ∧ t :: us = expandShorthand span ++ us' ∧ IsShorthand span ∧
        Expanded ts' us' := by
  generalize hus : t :: us = xs at h
  cases h with
  | nil => cases hus
  | token t h =>
    cases hus
    exact Or.inl ⟨_, rfl, h⟩
  | span hspan h => exact Or.inr ⟨_, _, _, rfl, rfl, hspan, h⟩

/-- Where no shorthand begins nothing is replaced. -/
theorem of_no_angle (hxs : ∀ t ∈ xs, t.isOperator "<" = false) (h : Expanded (xs ++ ts) us) :
    ∃ vs, us = xs ++ vs ∧ Expanded ts vs := by
  induction xs generalizing us with
  | nil => exact ⟨us, rfl, h⟩
  | cons x xs ih =>
    rcases h.of_cons with ⟨us, rfl, hrest⟩ | ⟨span, ts', us', hts, -, hspan, -⟩
    · obtain ⟨vs, rfl, hvs⟩ := ih (fun t ht => hxs t (List.mem_cons_of_mem x ht)) hrest
      exact ⟨vs, rfl, hvs⟩
    · obtain ⟨t, ss, rfl, ht⟩ := hspan.begins
      obtain ⟨rfl, -⟩ := List.cons_eq_cons.mp hts
      rw [hxs x List.mem_cons_self] at ht
      cases ht

/-- What was not replaced stood there before. -/
theorem of_no_brace (hxs : ∀ t ∈ xs, t.isBracket "\x7b" = false) (h : Expanded ts (xs ++ us)) :
    ∃ vs, ts = xs ++ vs ∧ Expanded vs us := by
  induction xs generalizing ts with
  | nil => exact ⟨ts, rfl, h⟩
  | cons x xs ih =>
    rcases h.to_cons with ⟨ts, rfl, hrest⟩ | ⟨span, ts', us', -, hus, hspan, -⟩
    · obtain ⟨vs, rfl, hvs⟩ := ih (fun t ht => hxs t (List.mem_cons_of_mem x ht)) hrest
      exact ⟨vs, rfl, hvs⟩
    · obtain ⟨t, ss, hexpansion, ht⟩ := hspan.expansion_begins
      rw [hexpansion] at hus
      obtain ⟨rfl, -⟩ := List.cons_eq_cons.mp hus
      rw [hxs x List.mem_cons_self] at ht
      cases ht

theorem trans (h : Expanded ts us) (h' : Expanded us vs) : Expanded ts vs := by
  induction h generalizing vs with
  | nil => exact h'
  | @token t ts us h ih =>
    rcases h'.of_cons with ⟨vs, rfl, hrest⟩ | ⟨span, us', vs', hus, rfl, hspan, hrest⟩
    · exact .token t (ih hrest)
    · -- the shorthand stood among the tokens before, behind `t`
      obtain ⟨t', ss, rfl, -⟩ := hspan.begins
      obtain ⟨rfl, rfl⟩ := List.cons_eq_cons.mp hus
      have hss : ∀ u ∈ ss, u.isBracket "\x7b" = false := fun u hu =>
        hspan.no_brace (List.mem_cons_of_mem t hu)
      obtain ⟨ts', rfl, hts'⟩ := (ih ((refl ss).append hrest)).of_no_brace hss
      exact .span hspan hts'
  | @span span ts us hspan h ih =>
    obtain ⟨vs', rfl, hrest⟩ := h'.of_no_angle fun t => hspan.no_angle
    exact .span hspan (ih hrest)

end Expanded

/-- Nothing is expanded twice. -/
theorem Unfolds.expanded {ts us : List Token} (h : Unfolds ts us) : Expanded ts us := by
  induction h with
  | refl ts => exact .refl ts
  | token t _ ih => exact .token t ih
  | expand hspan _ ih =>
    obtain ⟨vs, rfl, hvs⟩ := ih.of_no_angle fun t => hspan.no_angle
    exact .span hspan hvs

end EventRules
