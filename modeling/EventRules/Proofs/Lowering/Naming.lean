import EventRules.Proofs.Lowering.Correspondence

/-!
# Lowering a name and its literal

Two lowerings concur if, when both succeed, they come to the same result and to the same output. In a
scope that has a constant, the expression with its name concurs with the expression with the literal in
its place. Only a duration has to be kept from the extents of samplers: as a constant it is an integer,
and an integer counts events there.
-/

namespace EventRules
set_option autoImplicit false

open Routine

namespace Lowering

/-- When both succeed, their results are related and their outputs are equal. -/
def Concur {α β : Type} (Q : α → β → Prop) (m : Lower α) (n : Lower β) : Prop :=
  ∀ o a b u v, m.run o = (.ok a, u) → n.run o = (.ok b, v) → Q a b ∧ u = v

theorem lasting_eq : Lasting Eq Eq where
  same := fun _ => rfl
  names := fun h => by rw [h]
  issued := fun h => by rw [h]
  drawn := fun h => by rw [h]
  warned := fun h _ => by rw [h]
  entered := fun h _ => by rw [h]
  left := fun h h' => by rw [h, h']
  emitted := fun h _ _ _ hbody => by rw [h, hbody.recoded.eq]

/-- `scope` has the constant in addition, and no parameter that hides it. -/
structure Binds (name : String) (literal : Literal) (scope scope' : Scope) : Prop where
  registry : scope.registry = scope'.registry
  parameter : scope.parameter = scope'.parameter
  bound : scope.constants.get? name = some literal.value
  others : ∀ other, other ≠ name → scope.constants.get? other = scope'.constants.get? other
  free : scope.parameter ≠ some name

/-- The constant can stand for the literal in the expression. -/
structure Nameable (name : String) (literal : Literal) (e : Expr) : Prop where
  free : name ∉ e.parameters
  extent : ∀ ms, literal = .duration ms → name ∉ e.extents

namespace Nameable

variable {name : String} {literal : Literal} {e left right operand below above body : Expr}

theorem part (h : Nameable name literal e)
    (hpart : ∀ found : Expr → List String, operand.gather found ⊆ e.gather found) :
    Nameable name literal operand :=
  ⟨fun hname => h.free (hpart _ hname), fun ms hms hname => h.extent ms hms (hpart _ hname)⟩

theorem of_binary {op : BinaryOp} (h : Nameable name literal (.binary op left right)) :
    Nameable name literal left ∧ Nameable name literal right := by
  refine ⟨h.part fun found => ?_, h.part fun found => ?_⟩
  · exact List.Subset.trans (List.subset_append_right _ _) (List.subset_append_left _ _)
  · exact List.subset_append_right _ _

theorem of_unary {op : UnaryOp} (h : Nameable name literal (.unary op operand)) :
    Nameable name literal operand :=
  h.part fun _ => List.subset_append_right _ _

theorem of_range {opening closing : Token}
    (h : Nameable name literal (.range opening below above closing)) :
    Nameable name literal below ∧ Nameable name literal above := by
  refine ⟨h.part fun found => ?_, h.part fun found => ?_⟩
  · exact List.Subset.trans (List.subset_append_right _ _) (List.subset_append_left _ _)
  · exact List.subset_append_right _ _

theorem of_stage {stages : List (Stage Expr)} (h : Nameable name literal (.arrow stages)) {s : Stage Expr}
    (hs : s ∈ stages) : Nameable name literal s.body :=
  h.part fun _ => List.Subset.trans (Expr.gather_of_stage hs) (List.subset_append_right _ _)

theorem of_argument {c : Call Expr} (h : Nameable name literal (.call c)) {e : Expr} (he : e ∈ c.args) :
    Nameable name literal e :=
  h.part fun _ => List.Subset.trans (Expr.gather_of_argument he) (List.subset_append_right _ _)

theorem of_chain {calls : List (Call Expr)} (h : Nameable name literal (.chain calls)) {c : Call Expr}
    {e : Expr} (hc : c ∈ calls) (he : e ∈ c.args) : Nameable name literal e :=
  h.part fun _ => List.Subset.trans (Expr.gather_of_call hc he) (List.subset_append_right _ _)

theorem of_lambda {params : List Token} (h : Nameable name literal (.lambda params body)) :
    Nameable name literal body :=
  h.part fun _ => List.subset_append_right _ _

theorem not_parameter {params : List Token} (h : Nameable name literal (.lambda params body)) :
    name ∉ params.map Token.text :=
  fun hname => h.free (List.mem_append_left _ hname)

theorem call_extents {c : Call Expr} (h : Nameable name literal (.call c)) :
    ∀ ms, literal = .duration ms → name ∉ c.extents :=
  fun ms hms hname => h.extent ms hms (List.mem_append_left _ hname)

theorem chain_extents {calls : List (Call Expr)} (h : Nameable name literal (.chain calls))
    {c : Call Expr} (hc : c ∈ calls) : ∀ ms, literal = .duration ms → name ∉ c.extents :=
  fun ms hms hname =>
    h.extent ms hms (List.mem_append_left _ (List.mem_flatMap.mpr ⟨c, hc, hname⟩))

end Nameable

variable {name : String} {literal : Literal} {token : Token} {scope scope' : Scope}

theorem code_corresponds (h : Binds name literal scope scope') {t t' : Token} (ht : t'.text = t.text)
    (hne : t.text ≠ name) : Corresponds Eq Eq (ofExcept (scope.code t)) (ofExcept (scope'.code t')) := by
  rw [Scope.code, Scope.code, ht, ← h.parameter, ← h.others _ hne]
  split
  · exact .same _
  · split
    · exact .same _
    · exact .fail_left _ _

/-- Only the name of a duration says something else than the literal. -/
theorem amountsConcur (h : Binds name literal scope scope') {e e' : Expr}
    (he : e.Spells name literal token e') {R : Amount → Amount → Prop} (hsame : ∀ x, R x x)
    (hduration : ∀ ms t, literal = .duration ms → e = .ident t → t.text = name →
      R (.integer ms) (.duration ms)) : AmountsConcur scope scope' R e e' := by
  intro c c' x y hx hy
  cases e with
  | scalar value t =>
    obtain ⟨t', rfl⟩ := he.of_scalar
    cases hx
    cases hy
    exact hsame _
  | ident t =>
    by_cases ht : t.text = name
    · obtain ⟨t', rfl⟩ := he.of_name ht
      rw [amount, ht, h.bound] at hx
      cases hx
      cases hy
      cases literal with
      | duration ms => exact hduration ms t rfl rfl ht
      | _ => exact hsame _
    · obtain ⟨t', rfl, ht'⟩ := he.of_ident ht
      rw [amount, h.others _ ht] at hx
      rw [amount, ht'] at hy
      cases hv : scope'.constants.get? t.text with
      | none =>
        rw [hv] at hx
        cases hx
      | some v =>
        rw [hv] at hx hy
        cases hx
        cases hy
        exact hsame _
  | _ => cases hx

theorem extension_concur (h : Binds name literal scope scope') {e e' : Expr}
    (he : e.Spells name literal token e') : filterExtension? scope e = filterExtension? scope' e' := by
  cases e with
  | call c =>
    obtain ⟨c', rfl, hargs, hcalled, -⟩ := he.ofCall
    obtain ⟨t, isStrict, args⟩ := c
    obtain ⟨t', isStrict', args'⟩ := c'
    cases hargs with
    | nil =>
      have hcalled : t'.text = t.text := hcalled
      rw [filterExtension?, filterExtension?, h.registry, hcalled]
    | cons => rfl
  | scalar value t =>
    obtain ⟨t', rfl⟩ := he.of_scalar
    rfl
  | ident t =>
    by_cases ht : t.text = name
    · obtain ⟨t', rfl⟩ := he.of_name ht
      rfl
    · obtain ⟨t', rfl, -⟩ := he.of_ident ht
      rfl
  | binary op left right =>
    obtain ⟨left', right', rfl, -, -⟩ := he.of_binary
    rfl
  | unary op operand =>
    obtain ⟨operand', rfl, -⟩ := he.of_unary
    rfl
  | compare op operand =>
    obtain ⟨operand', rfl, -⟩ := he.of_compare
    rfl
  | range opening below above closing =>
    obtain ⟨opening', below', above', closing', rfl, -⟩ := he.of_range
    rfl
  | arrow stages =>
    obtain ⟨stages', rfl, -⟩ := he.of_arrow
    rfl
  | chain calls =>
    obtain ⟨calls', rfl, -⟩ := he.of_chain
    rfl
  | lambda params body =>
    obtain ⟨params', body', rfl, -⟩ := he.of_lambda
    rfl

theorem call_of_spelled (h : Binds name literal scope scope') {c c' : Call Expr}
    (hc : Expr.Spells.OfCall name literal token c c')
    (hlower : ∀ e ∈ c.args, ∀ e', e.Spells name literal token e' →
      Corresponds Eq Eq (lower scope e) (lower scope' e'))
    (hextent : ∀ ms, literal = .duration ms → name ∉ c.extents) :
    CallsCorrespond Eq Eq scope scope' ⟨c.name, c.strict, c.args.map fun e => ⟨e, lower scope e⟩⟩
      ⟨c'.name, c'.strict, c'.args.map fun e => ⟨e, lower scope' e⟩⟩ := by
  have hargs := (List.forall₂_and_left _ _).mpr ⟨fun e he => he, hc.args⟩
  refine ⟨hc.called.symm, hc.strict.symm, ?_, fun hsampler => ?_, fun _ => ?_⟩ <;>
    rw [List.forall₂_map_left_iff, List.forall₂_map_right_iff]
  · exact hargs.imp fun e e' he => ⟨hlower e he.1 e' he.2,
      amountsConcur h he.2 .same fun ms _ _ _ _ => .milliseconds ms, extension_concur h he.2⟩
  · refine hargs.imp fun e e' he =>
      amountsConcur h he.2 (fun _ => rfl) fun ms t hms (ht : e = .ident t) hname => ?_
    have hsampler : c.IsSampler := hsampler
    refine absurd ?_ (hextent ms hms)
    rw [Call.extents, if_pos hsampler]
    exact List.mem_flatMap.mpr ⟨e, he.1, by rw [ht]; exact List.mem_singleton.mpr hname.symm⟩
  · exact hargs.imp fun e e' he => hlower e he.1 e' he.2

theorem comparison_corresponds (h : Binds name literal scope scope') (op : CompareOp) {e e' : Expr}
    (he : e.Spells name literal token e') :
    Corresponds Eq Eq (ofExcept (scope.comparison op e)) (ofExcept (scope'.comparison op e')) := by
  refine .ofExcept fun c c' hc hc' => ?_
  cases e with
  | scalar value t =>
    obtain ⟨t', rfl⟩ := he.of_scalar
    exact (judged_eq hc).trans (judged_eq hc').symm
  | ident t =>
    rw [Scope.comparison] at hc
    by_cases hp : scope.parameter = some t.text
    · simp only [hp, if_true] at hc
      cases hc
    · simp only [hp, if_false] at hc
      by_cases ht : t.text = name
      · obtain ⟨t', rfl⟩ := he.of_name ht
        rw [ht, h.bound] at hc
        exact (judged_eq hc).trans (judged_eq hc').symm
      · obtain ⟨t', rfl, ht'⟩ := he.of_ident ht
        rw [h.parameter] at hp
        rw [h.others _ ht] at hc
        rw [Scope.comparison] at hc'
        simp only [ht', hp, if_false] at hc'
        cases hv : scope'.constants.get? t.text with
        | none =>
          rw [hv] at hc
          cases hc
        | some v =>
          rw [hv] at hc hc'
          exact (judged_eq hc).trans (judged_eq hc').symm
  | _ => cases hc

theorem parameter_concur {params params' : List Token} (body body' : Expr)
    (h : params'.map Token.unplaced = params.map Token.unplaced) {p p' : String}
    (hp : parameter params body = .ok p) (hp' : parameter params' body' = .ok p') :
    p' = p ∧ p ∈ params.map Token.text := by
  have heach := Expr.Spells.forall₂_of_map_eq h
  rw [parameter.eq_def] at hp
  split at hp
  · next t =>
    rcases heach with _ | ⟨ht, _ | _⟩
    cases hp
    cases hp'
    exact ⟨Token.text_of_unplaced ht, List.mem_singleton.mpr rfl⟩
  · cases hp

theorem inclusive_of_unplaced {t t' : Token} (h : t'.unplaced = t.unplaced) :
    t'.isInclusive = t.isInclusive := by
  obtain ⟨hkind, htext, -⟩ := Token.mk.inj h
  rw [Token.isInclusive, Token.isInclusive, Token.isBracket, Token.isBracket, Token.isBracket,
    Token.isBracket, hkind, htext]

theorem lower_corresponds (e : Expr) : ∀ {e' : Expr} {scope scope' : Scope}, Binds name literal scope scope' →
    Nameable name literal e → e.Spells name literal token e' →
    Corresponds Eq Eq (lower scope e) (lower scope' e') := by
  induction e using Expr.induct with
  | scalar value t =>
    intro e' scope scope' _ _ he
    obtain ⟨t', rfl⟩ := he.of_scalar
    exact .pure rfl
  | ident t =>
    intro e' scope scope' h _ he
    rw [lower]
    by_cases ht : t.text = name
    · obtain ⟨t', rfl⟩ := he.of_name ht
      have hcode : scope.code t = .ok (.literal literal.value) := by
        rw [Scope.code, ht, if_neg h.free, h.bound]
      rw [hcode]
      exact .pure rfl
    · obtain ⟨t', rfl, ht'⟩ := he.of_ident ht
      exact code_corresponds h ht' ht
  | binary op left right ihl ihr =>
    intro e' scope scope' h hn he
    obtain ⟨left', right', rfl, hleft, hright⟩ := he.of_binary
    obtain ⟨hnl, hnr⟩ := hn.of_binary
    exact .bind_eq (ihl h hnl hleft) fun l => .bind_eq (ihr h hnr hright) fun r => .pure rfl
  | unary op operand ih =>
    intro e' scope scope' h hn he
    obtain ⟨operand', rfl, hoperand⟩ := he.of_unary
    exact .bind_eq (ih h hn.of_unary hoperand) fun code => .pure rfl
  | compare op operand _ =>
    intro e' scope scope' h _ he
    obtain ⟨operand', rfl, hoperand⟩ := he.of_compare
    rw [lower, lower]
    exact comparison_corresponds h op hoperand
  | range opening below above closing ihl ihu =>
    intro e' scope scope' h hn he
    obtain ⟨opening', below', above', closing', rfl, ho, hc, hbelow, habove⟩ := he.of_range
    obtain ⟨hnl, hnu⟩ := hn.of_range
    rw [lower, lower, Token.lowerOp, Token.lowerOp, Token.upperOp, Token.upperOp,
      inclusive_of_unplaced ho, inclusive_of_unplaced hc]
    -- whether the bounds are allowed does not show in the code
    refine .bind (Q := fun _ _ => True) (.ofExcept fun _ _ _ _ => trivial) fun _ _ _ => ?_
    exact .bind_eq (ihl h hnl hbelow) fun l => .bind_eq (ihu h hnu habove) fun u => .pure rfl
  | arrow stages ih =>
    intro e' scope scope' h hn he
    obtain ⟨stages', rfl, hstages⟩ := he.of_arrow
    have heach := (List.forall₂_and_left _ _).mpr ⟨fun s hs => hs, hstages⟩
    exact arrow_corresponds lasting_eq <|
      heach.imp fun s s' hs => ih s hs.1 h (hn.of_stage hs.1) hs.2
  | call c ih =>
    intro e' scope scope' h hn he
    obtain ⟨c', rfl, hc⟩ := he.ofCall
    have hcalls := call_of_spelled h hc (fun e hmem e' he => ih e hmem h (hn.of_argument hmem) he)
      hn.call_extents
    rw [lower, lower, operands_eq_map, operands_eq_map]
    exact call_corresponds lasting_eq h.registry hcalls
  | chain calls ih =>
    intro e' scope scope' h hn he
    obtain ⟨calls', rfl, hcalls⟩ := he.of_chain
    have heach := (List.forall₂_and_left _ _).mpr ⟨fun c hc => hc, hcalls⟩
    rw [lower, lower, operandCalls_eq_map, operandCalls_eq_map]
    refine chain_corresponds lasting_eq h.registry ?_
    rw [List.forall₂_map_left_iff, List.forall₂_map_right_iff]
    refine heach.imp fun c c' hc => call_of_spelled h hc.2 ?_ (hn.chain_extents hc.1)
    exact fun e harg e' he => ih c hc.1 e harg h (hn.of_chain hc.1 harg) he
  | lambda params body ih =>
    intro e' scope scope' h hn he
    obtain ⟨params', body', rfl, hparams, hbody⟩ := he.of_lambda
    rw [lower, lower]
    refine .bind (Q := fun p p' => p' = p ∧ p ∈ params.map Token.text)
      (.ofExcept fun p p' hp hp' => parameter_concur body body' hparams hp hp') fun p p' hpp => ?_
    obtain ⟨rfl, hp⟩ := hpp
    have hfree : some p' ≠ some name := by
      rintro hname
      cases hname
      exact hn.not_parameter hp
    exact ih ⟨h.registry, rfl, h.bound, h.others, hfree⟩ hn.of_lambda hbody

theorem lower_concur (e : Expr) {e' : Expr} {scope scope' : Scope} (h : Binds name literal scope scope')
    (hn : Nameable name literal e) (he : e.Spells name literal token e') :
    Concur Eq (lower scope e) (lower scope' e') :=
  fun o a b u v hm hm' => lower_corresponds e h hn he o o a b u v rfl hm hm'

end Lowering

end EventRules
