import EventRules.Rule.Expr

/-!
# Induction over expressions

An expression holds others directly, in the stages of an arrow and in the arguments of calls. The
principle gives the hypothesis for each of them by membership, so that a proof about all expressions
needs no companions for the lists between them.
-/

namespace EventRules.Expr
set_option autoImplicit false

theorem sizeOf_argument_lt {c : Call Expr} {e : Expr} (h : e ∈ c.args) : sizeOf e < sizeOf c := by
  obtain ⟨name, isStrict, args⟩ := c
  have := List.sizeOf_lt_of_mem h
  simp only [Call.mk.sizeOf_spec] at this ⊢
  omega

theorem sizeOf_stage_lt (s : Stage Expr) : sizeOf s.body < sizeOf s := by
  obtain ⟨opening, body⟩ := s
  simp only [Stage.mk.sizeOf_spec]
  omega

section

variable {motive : Expr → Prop}
  (scalar : ∀ value token, motive (.scalar value token))
  (ident : ∀ name, motive (.ident name))
  (binary : ∀ op left right, motive left → motive right → motive (.binary op left right))
  (unary : ∀ op operand, motive operand → motive (.unary op operand))
  (compare : ∀ op operand, motive operand → motive (.compare op operand))
  (range : ∀ opening lower upper closing, motive lower → motive upper →
    motive (.range opening lower upper closing))
  (arrow : ∀ stages, (∀ s ∈ stages, motive s.body) → motive (.arrow stages))
  (call : ∀ c, (∀ e ∈ c.args, motive e) → motive (.call c))
  (chain : ∀ calls, (∀ c ∈ calls, ∀ e ∈ c.args, motive e) → motive (.chain calls))
  (lambda : ∀ params body, motive body → motive (.lambda params body))
include scalar ident binary unary compare range arrow call chain lambda

@[elab_as_elim]
theorem induct (e : Expr) : motive e := by
  match e with
  | .scalar value token => exact scalar value token
  | .ident name => exact ident name
  | .binary op left right => exact binary op left right (induct left) (induct right)
  | .unary op operand => exact unary op operand (induct operand)
  | .compare op operand => exact compare op operand (induct operand)
  | .range opening lower upper closing =>
    exact range opening lower upper closing (induct lower) (induct upper)
  | .arrow stages => exact arrow stages fun s _ => induct s.body
  | .call c => exact call c fun e _ => induct e
  | .chain calls => exact chain calls fun c _ e _ => induct e
  | .lambda params body => exact lambda params body (induct body)
termination_by sizeOf e
decreasing_by
  all_goals simp only [Expr.binary.sizeOf_spec, Expr.unary.sizeOf_spec, Expr.compare.sizeOf_spec,
    Expr.range.sizeOf_spec, Expr.arrow.sizeOf_spec, Expr.call.sizeOf_spec, Expr.chain.sizeOf_spec,
    Expr.lambda.sizeOf_spec]
  · omega
  · omega
  · omega
  · omega
  · omega
  · omega
  · have := List.sizeOf_lt_of_mem ‹s ∈ stages›
    have := sizeOf_stage_lt s
    omega
  · have := sizeOf_argument_lt ‹_ ∈ c.args›
    omega
  · have := List.sizeOf_lt_of_mem ‹c ∈ calls›
    have := sizeOf_argument_lt ‹_ ∈ c.args›
    omega
  · omega

end

end EventRules.Expr
