import EventRules.Proofs.Lowering.Correspondence
import EventRules.Proofs.Rule.Instantiation
import EventRules.Proofs.Run.Filling

/-!
# Lowering with a constant for the parameter

The body of an anonymous function is lowered to code that tests the value under test, and with a constant
for the parameter it is lowered to the same code with the value of the constant filled in. Below another
anonymous function the parameter has no meaning, so that nothing is written for it there in what can be
lowered, unless a constant has the same name.
-/

namespace EventRules
set_option autoImplicit false

open Routine

namespace Lowering

variable {x : Value} {scope scope' : Scope}

theorem bound_filled {c d : Code} (h : Code.Filled x c d) : Code.Filled x (bound c) (bound d) := by
  rw [bound, bound]
  cases hc : c.fold? with
  | some v =>
    rw [h.fold hc]
    exact .same _
  | none =>
    cases hd : d.fold? with
    | none => exact h
    | some v => exact .calculated h hd

/-- The second output is the first one with `x` filled in. -/
structure Output.Filled (x : Value) (o o' : Output) : Prop where
  fragments : List.Forall₂ (Fragment.Filled x) o.fragments o'.fragments
  issued : o.issued = o'.issued

theorem Output.filled_same (o : Output) : o.Filled x o :=
  ⟨List.forall₂_same.mpr fun f _ => ⟨rfl, .same .same f.body⟩, rfl⟩

theorem lasting_filled (x : Value) : Lasting (Output.Filled x) (Code.Filled x) where
  same := .same
  names := fun h => List.forall₂_eq_eq_eq ▸ List.rel_map (fun _ _ hf => hf.name) h.fragments
  issued := fun h => h.issued
  drawn := fun h => ⟨h.fragments, congrArg Nat.succ h.issued⟩
  warned := fun h _ => ⟨h.fragments, h.issued⟩
  entered := fun h _ => ⟨h.fragments, h.issued⟩
  left := fun _ h => ⟨h.fragments, h.issued⟩
  emitted := fun h _ _ _ hbody => ⟨List.rel_append h.fragments (.cons ⟨rfl, hbody⟩ .nil), h.issued⟩

/-- The value of a literal, or of a constant by its name. -/
def constantValue? (constants : Keyed Value) : Expr → Option Value
  | .scalar literal _ => some literal.value
  | .ident name => constants.get? name.text
  | _ => none

/-- Nothing has the name. -/
structure Unbound (name : String) (scope : Scope) : Prop where
  parameter : scope.parameter ≠ some name
  constants : scope.constants.get? name = none

section

variable {binding : Binding} {e e' : Expr}

/-- The parameter does not stand in the expression itself, so that nothing is written there. -/
def Untouched (name : String) (scope scope' : Scope) (e : Expr) : Prop :=
  scope = scope' ∨ name ∉ e.inlineNames

/-- The same expression at the same place; an expression in which the parameter stands for the reading, and
the one with a constant of the value `x` for it; or an expression below another anonymous function, where
the parameter has no meaning. -/
inductive Instantiated (x : Value) (binding : Binding) : Scope → Scope → Expr → Expr → Prop where
  | same (scope : Scope) (e : Expr) : Instantiated x binding scope scope e e
  | filled {constants : Keyed Value} {registry : Registry} {e : Expr}
      (hvalue : constantValue? constants binding.arg = some x)
      (h : e.takesReading binding.name (constants.get? binding.name).isSome = true) :
      Instantiated x binding ⟨constants, registry, some binding.name⟩ ⟨constants, registry, none⟩ e
        (e.instantiate binding)
  | unbound {scope : Scope} (hleaf : binding.arg.isLeaf = true) (h : Unbound binding.name scope) (e : Expr) :
      Instantiated x binding scope scope e (e.instantiate binding)

/-- A call with arguments of this kind. Where the parameter may stand by itself, it is no constant, and it
does not stand in the condition of a verdict itself. -/
structure CallInstantiated (x : Value) (binding : Binding) (scope scope' : Scope) (c c' : Call Expr) :
    Prop where
  name : c.name = c'.name
  strict : c.strict = c'.strict
  args : List.Forall₂ (Instantiated x binding scope scope') c.args c'.args
  amounts : ∀ e ∈ c.args, e.isLeaf = true →
    Untouched binding.name scope scope' e ∨ scope.constants.get? binding.name = none
  verdict : c.name.text = "meet" → ∀ e ∈ c.args, Untouched binding.name scope scope' e

theorem leaf_of_value {constants : Keyed Value} (h : constantValue? constants e = some x) :
    e.isLeaf = true := by
  cases e with
  | scalar literal t => rfl
  | ident t => rfl
  | _ => cases h

theorem lower_of_value {constants : Keyed Value} {registry : Registry}
    (h : constantValue? constants e = some x) :
    lower ⟨constants, registry, none⟩ e = pure (.literal x) := by
  cases e with
  | scalar literal t =>
    cases h
    rw [lower]
  | ident t =>
    rw [constantValue?] at h
    rw [lower, Scope.code, if_neg (Option.some_ne_none _).symm, h]
    rfl
  | _ => cases h

theorem filterExtension_of_leaf (h : e.isLeaf = true) : filterExtension? scope e = none := by
  cases e with
  | scalar literal t => rfl
  | ident t => rfl
  | _ => cases h

theorem CallInstantiated.same (scope : Scope) (c : Call Expr) :
    CallInstantiated x binding scope scope c c where
  name := rfl
  strict := rfl
  args := List.forall₂_same.mpr fun e _ => .same scope e
  amounts := fun _ _ _ => .inl (.inl rfl)
  verdict := fun _ _ _ => .inl rfl

theorem CallInstantiated.filled {constants : Keyed Value} {registry : Registry} {c : Call Expr}
    (hvalue : constantValue? constants binding.arg = some x)
    (h : c.takesReading binding.name (constants.get? binding.name).isSome = true)
    (hargs : ∀ e ∈ c.args, e.takesReading binding.name (constants.get? binding.name).isSome = true) :
    CallInstantiated x binding ⟨constants, registry, some binding.name⟩ ⟨constants, registry, none⟩ c
      ⟨c.name, c.strict, c.args.map fun e => e.instantiate binding⟩ := by
  have heach : ∀ e ∈ c.args, binding.name ∈ e.inlineNames →
      c.name.text ≠ "meet" ∧ ((constants.get? binding.name).isSome = true → e.isLeaf = false) :=
    fun e he => of_decide_eq_true (List.all_eq_true.mp h e he)
  refine ⟨rfl, rfl, ?_, fun e he hleaf => ?_, fun hmeet e he => .inr fun hname => ?_⟩
  · exact List.forall₂_map_right_iff.mpr (List.forall₂_same.mpr fun e he => .filled hvalue (hargs e he))
  · by_cases hname : binding.name ∈ e.inlineNames
    · refine .inr (Option.not_isSome_iff_eq_none.mp fun hconstant => ?_)
      have hcompound := (heach e he hname).2 hconstant
      exact absurd (hcompound.symm.trans hleaf) Bool.false_ne_true
    · exact .inl (.inr hname)
  · exact (heach e he hname).1 hmeet

theorem CallInstantiated.unbound (hleaf : binding.arg.isLeaf = true) (h : Unbound binding.name scope)
    (c : Call Expr) :
    CallInstantiated x binding scope scope c
      ⟨c.name, c.strict, c.args.map fun e => e.instantiate binding⟩ where
  name := rfl
  strict := rfl
  args := List.forall₂_map_right_iff.mpr (List.forall₂_same.mpr fun e _ => .unbound hleaf h e)
  amounts := fun _ _ _ => .inl (.inl rfl)
  verdict := fun _ _ _ => .inl rfl

/-- What becomes of a name: it is the same with the same meaning, it is the parameter and the constant is
written, or it has no meaning. -/
inductive NameInstantiated (x : Value) (binding : Binding) (scope scope' : Scope) (t : Token) :
    Expr → Prop where
  | same (hcode : scope.code t = scope'.code t) (hconstants : scope.constants = scope'.constants) :
      NameInstantiated x binding scope scope' t (.ident t)
  | parameter (h : scope.parameter = some t.text) (ht : t.text = binding.name)
      (hlower : lower scope' binding.arg = pure (.literal x))
      (htouched : ¬ Untouched binding.name scope scope' (.ident t)) :
      NameInstantiated x binding scope scope' t binding.arg
  | unbound (h : Unbound t.text scope) : NameInstantiated x binding scope scope' t binding.arg

namespace Instantiated

theorem registry_eq (h : Instantiated x binding scope scope' e e') : scope.registry = scope'.registry := by
  cases h <;> rfl

theorem scalar {value : Literal} {t : Token}
    (h : Instantiated x binding scope scope' (.scalar value t) e') : e' = .scalar value t := by
  cases h <;> rfl

theorem leaf {t : Token} (h : Instantiated x binding scope scope' (.ident t) e') : e'.isLeaf = true := by
  cases h with
  | same => rfl
  | filled hvalue _ =>
    rw [Expr.instantiate]
    split
    · exact leaf_of_value hvalue
    · rfl
  | unbound hleaf _ =>
    rw [Expr.instantiate]
    split
    · exact hleaf
    · rfl

theorem ident {t : Token} (h : Instantiated x binding scope scope' (.ident t) e') :
    NameInstantiated x binding scope scope' t e' := by
  cases h with
  | same => exact .same rfl rfl
  | filled hvalue _ =>
    rw [Expr.instantiate]
    split
    · next ht =>
      refine .parameter (congrArg some ht.symm) ht (lower_of_value hvalue) ?_
      rintro (hscope | hname)
      · cases hscope
      · exact hname (List.mem_singleton.mpr ht.symm)
    · next ht =>
      refine .same ?_ rfl
      rw [Scope.code, Scope.code, if_neg fun hp => ht (Option.some.inj hp).symm,
        if_neg (Option.some_ne_none _).symm]
  | unbound hleaf hunbound =>
    rw [Expr.instantiate]
    split
    · next ht => exact .unbound (ht ▸ hunbound)
    · exact .same rfl rfl

theorem binary {op : BinaryOp} {left right : Expr}
    (h : Instantiated x binding scope scope' (.binary op left right) e') :
    ∃ left' right', e' = .binary op left' right' ∧ Instantiated x binding scope scope' left left' ∧
      Instantiated x binding scope scope' right right' := by
  cases h with
  | same => exact ⟨left, right, rfl, .same _ _, .same _ _⟩
  | filled hvalue h =>
    rw [Expr.takesReading, Bool.and_eq_true] at h
    exact ⟨_, _, rfl, .filled hvalue h.1, .filled hvalue h.2⟩
  | unbound hleaf h => exact ⟨_, _, rfl, .unbound hleaf h _, .unbound hleaf h _⟩

theorem unary {op : UnaryOp} {operand : Expr}
    (h : Instantiated x binding scope scope' (.unary op operand) e') :
    ∃ operand', e' = .unary op operand' ∧ Instantiated x binding scope scope' operand operand' := by
  cases h with
  | same => exact ⟨operand, rfl, .same _ _⟩
  | filled hvalue h => exact ⟨_, rfl, .filled hvalue h⟩
  | unbound hleaf h => exact ⟨_, rfl, .unbound hleaf h _⟩

theorem compare {op : CompareOp} {operand : Expr}
    (h : Instantiated x binding scope scope' (.compare op operand) e') :
    ∃ operand', e' = .compare op operand' ∧ Instantiated x binding scope scope' operand operand' := by
  cases h with
  | same => exact ⟨operand, rfl, .same _ _⟩
  | filled hvalue h => exact ⟨_, rfl, .filled hvalue h⟩
  | unbound hleaf h => exact ⟨_, rfl, .unbound hleaf h _⟩

theorem range {opening closing : Token} {below above : Expr}
    (h : Instantiated x binding scope scope' (.range opening below above closing) e') :
    ∃ below' above', e' = .range opening below' above' closing ∧
      Instantiated x binding scope scope' below below' ∧
      Instantiated x binding scope scope' above above' := by
  cases h with
  | same => exact ⟨below, above, rfl, .same _ _, .same _ _⟩
  | filled hvalue h =>
    rw [Expr.takesReading, Bool.and_eq_true] at h
    exact ⟨_, _, rfl, .filled hvalue h.1, .filled hvalue h.2⟩
  | unbound hleaf h => exact ⟨_, _, rfl, .unbound hleaf h _, .unbound hleaf h _⟩

theorem arrow {stages : List (Stage Expr)} (h : Instantiated x binding scope scope' (.arrow stages) e') :
    ∃ stages', e' = .arrow stages' ∧ List.Forall₂ (fun s t : Stage Expr =>
      Instantiated x binding scope scope' s.body t.body) stages stages' := by
  cases h with
  | same => exact ⟨stages, rfl, List.forall₂_same.mpr fun s _ => .same _ _⟩
  | filled hvalue h =>
    rw [Expr.takesReading, Expr.stagesTakeReading_iff] at h
    rw [Expr.instantiate, Expr.instantiateStages_eq_map]
    refine ⟨_, rfl, List.forall₂_map_right_iff.mpr (List.forall₂_same.mpr fun s hs => ?_)⟩
    exact .filled hvalue (h s hs)
  | unbound hleaf h =>
    rw [Expr.instantiate, Expr.instantiateStages_eq_map]
    refine ⟨_, rfl, List.forall₂_map_right_iff.mpr (List.forall₂_same.mpr fun s _ => ?_)⟩
    exact .unbound hleaf h s.body

theorem call {c : Call Expr} (h : Instantiated x binding scope scope' (.call c) e') :
    ∃ c', e' = .call c' ∧ CallInstantiated x binding scope scope' c c' := by
  cases h with
  | same => exact ⟨c, rfl, .same _ _⟩
  | filled hvalue h =>
    rw [Expr.takesReading, Bool.and_eq_true, Expr.allTakeReading_iff] at h
    rw [Expr.instantiate, Expr.instantiateAll_eq_map]
    exact ⟨_, rfl, .filled hvalue h.1 h.2⟩
  | unbound hleaf h =>
    rw [Expr.instantiate, Expr.instantiateAll_eq_map]
    exact ⟨_, rfl, .unbound hleaf h c⟩

theorem chain {calls : List (Call Expr)} (h : Instantiated x binding scope scope' (.chain calls) e') :
    ∃ calls', e' = .chain calls' ∧ List.Forall₂ (CallInstantiated x binding scope scope') calls calls' := by
  cases h with
  | same => exact ⟨calls, rfl, List.forall₂_same.mpr fun c _ => .same _ c⟩
  | filled hvalue h =>
    rw [Expr.takesReading, Expr.callsTakeReading_iff] at h
    rw [Expr.instantiate, Expr.instantiateCalls_eq_map]
    refine ⟨_, rfl, List.forall₂_map_right_iff.mpr (List.forall₂_same.mpr fun c hc => ?_)⟩
    exact .filled hvalue (h c hc).1 (h c hc).2
  | unbound hleaf h =>
    rw [Expr.instantiate, Expr.instantiateCalls_eq_map]
    refine ⟨_, rfl, List.forall₂_map_right_iff.mpr (List.forall₂_same.mpr fun c _ => ?_)⟩
    exact .unbound hleaf h c

/-- Below an anonymous function the parameter has no meaning, unless that function has it too. -/
theorem unbound_body (scope : Scope) (params : List Token) (hleaf : binding.arg.isLeaf = true)
    (hconstants : scope.constants.get? binding.name = none) (body : Expr) :
    ∃ body', (Expr.lambda params body).instantiate binding = .lambda params body' ∧
      ∀ p ∈ params, Instantiated x binding { scope with parameter := some p.text }
        { scope with parameter := some p.text } body body' := by
  rw [Expr.instantiate]
  split
  · exact ⟨body, rfl, fun p _ => .same _ body⟩
  · next hname =>
    refine ⟨_, rfl, fun p hp => ?_⟩
    have hunbound : Unbound binding.name { scope with parameter := some p.text } :=
      ⟨fun hparameter => hname (List.mem_map.mpr ⟨p, hp, Option.some.inj hparameter⟩), hconstants⟩
    exact .unbound hleaf hunbound body

/-- The parameter of an anonymous function takes the place of the one around it. -/
theorem lambda {params : List Token} {body : Expr}
    (h : Instantiated x binding scope scope' (.lambda params body) e') :
    ∃ body', e' = .lambda params body' ∧
      ∀ p ∈ params, { scope with parameter := some p.text } = { scope' with parameter := some p.text } ∧
        Instantiated x binding { scope with parameter := some p.text }
          { scope' with parameter := some p.text } body body' := by
  cases h with
  | same => exact ⟨body, rfl, fun p _ => ⟨rfl, .same _ body⟩⟩
  | @filled constants registry _ hvalue h =>
    cases hconstant : constants.get? binding.name with
    | some v =>
      rw [Expr.takesReading, hconstant] at h
      refine ⟨body, Expr.instantiate_of_not_free (of_decide_eq_true h rfl), fun p _ => ⟨rfl, .same _ body⟩⟩
    | none =>
      obtain ⟨body', hbody, hinner⟩ := unbound_body (x := x) ⟨constants, registry, none⟩ params
        (leaf_of_value hvalue) hconstant body
      exact ⟨body', hbody, fun p hp => ⟨rfl, hinner p hp⟩⟩
  | unbound hleaf h =>
    obtain ⟨body', hbody, hinner⟩ := unbound_body (x := x) scope params hleaf h.constants body
    exact ⟨body', hbody, fun p hp => ⟨rfl, hinner p hp⟩⟩

theorem filterExtension_eq (h : Instantiated x binding scope scope' e e') :
    filterExtension? scope e = filterExtension? scope' e' := by
  cases e with
  | call c =>
    obtain ⟨c', rfl, hc⟩ := h.call
    obtain ⟨t, isStrict, args⟩ := c
    obtain ⟨t', isStrict', args'⟩ := c'
    obtain ⟨rfl, -, hargs, -, -⟩ := hc
    cases hargs with
    | nil => rw [filterExtension?, filterExtension?, h.registry_eq]
    | cons => rfl
  | ident t => rw [filterExtension_of_leaf rfl, filterExtension_of_leaf h.leaf]
  | lambda params body =>
    obtain ⟨body', rfl, -⟩ := h.lambda
    rfl
  | _ => cases h <;> rfl

theorem amountsConcur (h : Instantiated x binding scope scope' e e')
    (hleaf : e.isLeaf = true →
      Untouched binding.name scope scope' e ∨ scope.constants.get? binding.name = none) :
    AmountsConcur scope scope' Eq e e' := by
  intro c c' a b ha hb
  cases e with
  | scalar value t =>
    obtain rfl := h.scalar
    exact Except.ok.inj (ha.symm.trans hb)
  | ident t =>
    have hsome : scope.constants.get? t.text ≠ none := by
      intro hnone
      rw [amount, hnone] at ha
      cases ha
    cases h.ident with
    | same _ hconstants =>
      rw [amount, hconstants] at ha
      rw [amount] at hb
      cases hv : scope'.constants.get? t.text with
      | none => exact absurd (hconstants ▸ hv) hsome
      | some v =>
        rw [hv] at ha hb
        exact Except.ok.inj (ha.symm.trans hb)
    | parameter _ ht _ htouched =>
      rcases hleaf rfl with huntouched | hnone
      · exact absurd huntouched htouched
      · exact absurd (ht ▸ hnone) hsome
    | unbound hunbound => exact absurd hunbound.constants hsome
  | _ => cases ha

/-- The parameter is nothing to compare with. -/
theorem comparison_eq {op : CompareOp} {c d : Code} (h : Instantiated x binding scope scope' e e')
    (hc : scope.comparison op e = .ok c) (hd : scope'.comparison op e' = .ok d) : c = d := by
  cases e with
  | scalar value t =>
    obtain rfl := h.scalar
    exact Except.ok.inj (hc.symm.trans hd)
  | ident t =>
    by_cases hp : scope.parameter = some t.text
    · rw [Scope.comparison, if_pos hp] at hc
      cases hc
    rw [Scope.comparison, if_neg hp] at hc
    cases h.ident with
    | same _ hconstants =>
      by_cases hp' : scope'.parameter = some t.text
      · rw [Scope.comparison, if_pos hp'] at hd
        cases hd
      · rw [hconstants] at hc
        rw [Scope.comparison, if_neg hp'] at hd
        exact Except.ok.inj (hc.symm.trans hd)
    | parameter hparameter => exact absurd hparameter hp
    | unbound hunbound =>
      rw [hunbound.constants] at hc
      cases hc
  | _ => cases hc

end Instantiated

/-- The second expression is lowered to the code of the first one with `x` filled in, and to the same code
where nothing is written. -/
def LowersFilled (x : Value) (name : String) (scope scope' : Scope) (e e' : Expr) : Prop :=
  Corresponds (Output.Filled x) (fun c d => Code.Filled x c d ∧ (Untouched name scope scope' e → c = d))
    (lower scope e) (lower scope' e')

theorem LowersFilled.of_eq {name : String}
    (h : Corresponds (Output.Filled x) Eq (lower scope e) (lower scope' e')) :
    LowersFilled x name scope scope' e e' :=
  h.imp fun c _ hcode => hcode ▸ ⟨.same c, fun _ => rfl⟩

theorem LowersFilled.filled {name : String} (h : LowersFilled x name scope scope' e e') :
    Corresponds (Output.Filled x) (Code.Filled x) (lower scope e) (lower scope' e') :=
  h.imp fun _ _ hcode => hcode.1

theorem LowersFilled.eq {name : String} (h : LowersFilled x name scope scope' e e')
    (huntouched : Untouched name scope scope' e) :
    Corresponds (Output.Filled x) Eq (lower scope e) (lower scope' e') :=
  h.imp fun _ _ hcode => hcode.2 huntouched

theorem callsCorrespond {c c' : Call Expr} (h : CallInstantiated x binding scope scope' c c')
    (hlower : ∀ e ∈ c.args, ∀ e', Instantiated x binding scope scope' e e' →
      LowersFilled x binding.name scope scope' e e') :
    CallsCorrespond (Output.Filled x) (Code.Filled x) scope scope' ⟨c.name, c.strict, operands scope c.args⟩
      ⟨c'.name, c'.strict, operands scope' c'.args⟩ := by
  rw [operands_eq_map, operands_eq_map]
  refine ⟨congrArg Token.text h.name, h.strict, ?_, fun _ => ?_, fun hmeet => ?_⟩ <;>
    rw [List.forall₂_map_left_iff, List.forall₂_map_right_iff]
  · refine ((List.forall₂_and_left _ _).mpr
      ⟨fun e he => And.intro (hlower e he) (h.amounts e he), h.args⟩).imp ?_
    rintro e e' ⟨⟨hfills, hleaf⟩, he⟩
    exact ⟨(hfills e' he).filled, (he.amountsConcur hleaf).reads, he.filterExtension_eq⟩
  · refine ((List.forall₂_and_left _ _).mpr ⟨h.amounts, h.args⟩).imp ?_
    rintro e e' ⟨hleaf, he⟩
    exact he.amountsConcur hleaf
  · refine ((List.forall₂_and_left _ _).mpr
      ⟨fun e he => And.intro (hlower e he) (h.verdict hmeet e he), h.args⟩).imp ?_
    rintro e e' ⟨⟨hfills, huntouched⟩, he⟩
    exact (hfills e' he).eq huntouched

theorem parameter_of_ok {params : List Token} {body : Expr} {p : String}
    (h : parameter params body = .ok p) : ∃ t, params = [t] ∧ p = t.text := by
  rw [parameter.eq_def] at h
  split at h
  · next t => exact ⟨t, rfl, (Except.ok.inj h).symm⟩
  · cases h

theorem lower_fills (e : Expr) : ∀ (scope scope' : Scope) (e' : Expr),
    Instantiated x binding scope scope' e e' → LowersFilled x binding.name scope scope' e e' := by
  induction e using Expr.induct with
  | scalar value t =>
    intro scope scope' e' h
    obtain rfl := h.scalar
    exact .of_eq (.pure rfl)
  | ident t =>
    intro scope scope' e' h
    cases h.ident with
    | same hcode =>
      refine .of_eq ?_
      rw [lower, lower, hcode]
      exact .same _
    | parameter hparameter _ hlower htouched =>
      rw [LowersFilled, lower, hlower, Scope.code, if_pos hparameter]
      exact .pure ⟨.subject, fun huntouched => absurd huntouched htouched⟩
    | unbound hunbound =>
      rw [LowersFilled, lower, Scope.code, if_neg hunbound.parameter, hunbound.constants]
      exact .fail_left _ _
  | binary op left right ihl ihr =>
    intro scope scope' e' h
    obtain ⟨left', right', rfl, hl, hr⟩ := h.binary
    rw [LowersFilled, lower, lower]
    refine .bind (ihl _ _ _ hl) fun l l' hleft => .bind (ihr _ _ _ hr) fun r r' hright => ?_
    refine .pure ⟨.binary op hleft.1 hright.1, fun huntouched => ?_⟩
    simp only [Untouched, Expr.inlineNames, List.mem_append, not_or, or_and_left] at huntouched
    rw [hleft.2 huntouched.1, hright.2 huntouched.2]
  | unary op operand ih =>
    intro scope scope' e' h
    obtain ⟨operand', rfl, hoperand⟩ := h.unary
    rw [LowersFilled, lower, lower]
    refine .bind (ih _ _ _ hoperand) fun c c' hcode => ?_
    refine .pure ⟨?_, fun huntouched => by rw [hcode.2 huntouched]⟩
    cases op with
    | not => exact .not hcode.1
    | increment => exact .step true hcode.1
    | decrement => exact .step false hcode.1
  | compare op operand ih =>
    intro scope scope' e' h
    obtain ⟨operand', rfl, hoperand⟩ := h.compare
    refine .of_eq ?_
    rw [lower, lower]
    exact .ofExcept fun _ _ => hoperand.comparison_eq
  | range opening below above closing ihl ihu =>
    intro scope scope' e' h
    obtain ⟨below', above', rfl, hl, hr⟩ := h.range
    rw [LowersFilled, lower, lower]
    refine .bind (.ofExcept (Q := fun _ _ => True) fun _ _ _ _ => trivial) fun _ _ _ => ?_
    refine .bind (ihl _ _ _ hl) fun l l' hleft => .bind (ihu _ _ _ hr) fun r r' hright => ?_
    refine .pure ⟨.binary _ (.compare _ (bound_filled hleft.1)) (.compare _ (bound_filled hright.1)),
      fun huntouched => ?_⟩
    simp only [Untouched, Expr.inlineNames, List.mem_append, not_or, or_and_left] at huntouched
    rw [hleft.2 huntouched.1, hright.2 huntouched.2]
  | arrow stages ih =>
    intro scope scope' e' h
    obtain ⟨stages', rfl, hstages⟩ := h.arrow
    have heach := (List.forall₂_and_left _ _).mpr ⟨fun s hs => ih s hs scope scope', hstages⟩
    refine .of_eq (arrow_corresponds (lasting_filled x) (heach.imp ?_))
    rintro s t ⟨hfills, hs⟩
    exact (hfills _ hs).filled
  | call c ih =>
    intro scope scope' e' h
    obtain ⟨c', rfl, hc⟩ := h.call
    refine .of_eq ?_
    rw [lower, lower]
    exact call_corresponds (lasting_filled x) h.registry_eq
      (callsCorrespond hc fun e he => ih e he scope scope')
  | chain calls ih =>
    intro scope scope' e' h
    obtain ⟨calls', rfl, hcalls⟩ := h.chain
    refine .of_eq ?_
    rw [lower, lower, operandCalls_eq_map, operandCalls_eq_map]
    refine chain_corresponds (lasting_filled x) h.registry_eq ?_
    rw [List.forall₂_map_left_iff, List.forall₂_map_right_iff]
    have heach := (List.forall₂_and_left _ _).mpr ⟨fun c hc e he => ih c hc e he scope scope', hcalls⟩
    simp only [← operands_eq_map]
    refine heach.imp ?_
    rintro c c' ⟨hfills, hc⟩
    exact callsCorrespond hc hfills
  | lambda params body ih =>
    intro scope scope' e' h
    obtain ⟨body', rfl, hbody⟩ := h.lambda
    refine .of_eq ?_
    rw [lower, lower]
    refine .bind (.ofExcept fun p p' hp hp' => And.intro hp hp') ?_
    rintro p p' ⟨hp, hp'⟩
    obtain ⟨t, rfl, rfl⟩ := parameter_of_ok hp
    obtain ⟨t', ht, rfl⟩ := parameter_of_ok hp'
    cases ht
    obtain ⟨hscope, hinner⟩ := hbody t List.mem_cons_self
    exact (ih _ _ _ hinner).eq (.inl hscope)

end

end Lowering

end EventRules
