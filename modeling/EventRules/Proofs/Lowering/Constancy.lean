import EventRules.Lowering.Expression
import EventRules.Proofs.Rule.Induction
import EventRules.Proofs.Rule.Substitution
import EventRules.Proofs.Run.Folding

/-!
# Constants and their code

An expression of literals, names and operators is lowered without a trace, to code that is made of
values unless it names a parameter. Its value as a constant is the value of that code where the code has
one and nothing is wrong with the sides that its logical operators may skip.
-/

namespace EventRules
set_option autoImplicit false

open Routine

/-- The names that stand for values in the expression. -/
def Expr.variables (e : Expr) : List String :=
  e.gather fun
    | .ident t => [t.text]
    | _ => []

/-- The code of an operation on one operand. -/
def UnaryOp.code : UnaryOp → Code → Code
  | not, operand => .not operand
  | increment, operand => .step true operand
  | decrement, operand => .step false operand

namespace Lowering

/-- No name in the expression is the parameter. -/
def Scope.Fixes (scope : Scope) (e : Expr) : Prop :=
  ∀ name ∈ e.variables, scope.parameter ≠ some name

variable {scope : Scope} {e : Expr} {o t : Output} {code : Code}

theorem fixes_binary {op : BinaryOp} {left right : Expr} :
    scope.Fixes (.binary op left right) ↔ scope.Fixes left ∧ scope.Fixes right := by
  simp only [Scope.Fixes, Expr.variables, Expr.gather, List.nil_append, List.mem_append, or_imp,
    forall_and]

theorem fixes_ident {name : Token} :
    scope.Fixes (.ident name) ↔ scope.parameter ≠ some name.text := by
  simp [Scope.Fixes, Expr.variables, Expr.gather]

theorem fixes_unary {op : UnaryOp} {operand : Expr} :
    scope.Fixes (.unary op operand) ↔ scope.Fixes operand := by
  simp only [Scope.Fixes, Expr.variables, Expr.gather, List.nil_append]

theorem lower_constant (he : isConstant e = true) : ∃ r, ∀ o, (lower scope e).run o = (r, o) := by
  induction e using Expr.induct with
  | scalar value token => exact ⟨.ok (.literal value.value), fun o => by rw [lower]; rfl⟩
  | ident name => exact ⟨scope.code name, fun o => by rw [lower]; rfl⟩
  | binary op left right ihl ihr =>
    rw [isConstant, Bool.and_eq_true] at he
    obtain ⟨l, hl⟩ := ihl he.1
    obtain ⟨r, hr⟩ := ihr he.2
    refine ⟨l.bind fun l => r.bind fun r => .ok (.binary op l r), fun o => ?_⟩
    rw [lower, run_bind, hl]
    cases l with
    | error err => rfl
    | ok l =>
      change ((lower scope right) >>= fun r => pure (Code.binary op l r)).run o = _
      rw [run_bind, hr]
      cases r with
      | error err => rfl
      | ok r => rfl
  | unary op operand ih =>
    obtain ⟨r, hr⟩ := ih he
    refine ⟨r.map op.code, fun o => ?_⟩
    rw [lower, run_bind, hr]
    cases r with
    | error err => rfl
    | ok c => cases op <;> rfl
  | _ => cases he

theorem lower_binary {op : BinaryOp} {left right : Expr}
    (h : (lower scope (.binary op left right)).run o = (.ok code, t)) :
    ∃ l r u, (lower scope left).run o = (.ok l, u) ∧ (lower scope right).run u = (.ok r, t) ∧
      code = .binary op l r := by
  rw [lower] at h
  obtain ⟨l, u, hl, h⟩ := bind_ok h
  obtain ⟨r, u', hr, h⟩ := bind_ok h
  cases h
  exact ⟨l, r, u, hl, hr, rfl⟩

theorem lower_unary {op : UnaryOp} {operand : Expr}
    (h : (lower scope (.unary op operand)).run o = (.ok code, t)) :
    ∃ c, (lower scope operand).run o = (.ok c, t) ∧ code = op.code c := by
  rw [lower] at h
  obtain ⟨c, u, hc, h⟩ := bind_ok h
  cases h
  exact ⟨c, hc, by cases op <;> rfl⟩

theorem lower_ident {name : Token} (h : (lower scope (.ident name)).run o = (.ok code, t)) :
    (scope.parameter = some name.text ∧ code = .subject) ∨
      scope.parameter ≠ some name.text ∧ ∃ v, scope.constants.get? name.text = some v ∧
        code = .literal v := by
  rw [lower] at h
  have hcode : scope.code name = .ok code := congrArg Prod.fst h
  clear h
  rw [Scope.code] at hcode
  split at hcode
  · rename_i hp
    exact .inl ⟨hp, (Except.ok.inj hcode).symm⟩
  · rename_i hp
    split at hcode
    · rename_i v hv
      exact .inr ⟨hp, v, hv, (Except.ok.inj hcode).symm⟩
    · cases hcode

/-- The code of a constant expression asks for the value under test only by the name of a parameter. -/
theorem closed_iff_fixes (he : isConstant e = true) (h : (lower scope e).run o = (.ok code, t)) :
    code.isClosed = true ↔ scope.Fixes e := by
  induction e using Expr.induct generalizing o t code with
  | scalar value token =>
    rw [lower] at h
    cases h
    simp [Code.isClosed, Scope.Fixes, Expr.variables, Expr.gather]
  | ident name =>
    rw [fixes_ident]
    rcases lower_ident h with ⟨hp, rfl⟩ | ⟨hp, v, -, rfl⟩
    · simp [Code.isClosed, hp]
    · simp [Code.isClosed, hp]
  | binary op left right ihl ihr =>
    rw [isConstant, Bool.and_eq_true] at he
    obtain ⟨l, r, u, hl, hr, rfl⟩ := lower_binary h
    rw [Code.isClosed, Bool.and_eq_true, ihl he.1 hl, ihr he.2 hr, fixes_binary]
  | unary op operand ih =>
    obtain ⟨c, hc, rfl⟩ := lower_unary h
    rw [fixes_unary, ← ih he hc]
    cases op <;> rfl
  | _ => cases he

theorem constant_eq (he : isConstant e = true) (h : (lower scope e).run o = (.ok code, t)) :
    constant scope e = match code.fold? with
      | some v => .ok v
      | none => .error (.notEvaluable e.shown e.position) := by
  obtain ⟨r, hr⟩ := lower_constant he
  obtain ⟨rfl, rfl⟩ := Prod.mk.inj ((hr o).symm.trans h)
  rw [constant, he, hr]
  change (match code.fold? with
    | some v => (pure v : Except LoweringError Value)
    | none => throw (LoweringError.notEvaluable e.shown e.position)) = _
  cases code.fold? <;> rfl

/-- An expression of literals, names and operators that can be lowered has a value as a constant exactly
where it names no parameter, its code evaluates to the value, and each right side of a logical operator
inside it has a value too, also where evaluation skips it. -/
theorem constant_iff_evaluates (he : isConstant e = true)
    (h : (lower scope e).run o = (.ok code, t)) (v subject : Value) (frame : Frame) (s : Session) :
    constant scope e = .ok v ↔
      (∀ name ∈ e.variables, scope.parameter ≠ some name) ∧
        ((evaluate code subject frame).run s).1 = .ok v ∧
        ∀ d ∈ code.guarded, ∃ w, ((evaluate d subject frame).run s).1 = .ok w := by
  have hfold : constant scope e = .ok v ↔ code.fold? = some v := by
    rw [constant_eq he h]
    cases code.fold? <;> simp
  have hclosed := closed_iff_fixes he h
  rw [hfold, Code.fold_iff, hclosed]
  rfl

/-- The disjunction of a truth and a quotient by zero. -/
def trueOrQuotient : Expr :=
  .binary .or (.scalar (.boolean true) default)
    (.binary .divide (.scalar (.integer 1) default) (.scalar (.integer 0) default))

theorem constant_iff_evaluates_quotient_skipped :
    isConstant trueOrQuotient = true ∧
      ∃ code, (lower ⟨.empty, .empty, none⟩ trueOrQuotient).run .empty = (.ok code, .empty) ∧
        (∀ subject frame s, ((evaluate code subject frame).run s).1 = .ok (.boolean true)) ∧
        ∀ v, constant ⟨.empty, .empty, none⟩ trueOrQuotient ≠ .ok v := by
  have hconstant : isConstant trueOrQuotient = true := by decide
  have hlower : (lower ⟨.empty, .empty, none⟩ trueOrQuotient).run .empty =
      (.ok (.binary .or (.literal (.boolean true))
        (.binary .divide (.literal (.integer 1)) (.literal (.integer 0)))), .empty) := rfl
  refine ⟨hconstant, _, hlower, fun _ _ _ => rfl, ?_⟩
  intro v hv
  obtain ⟨-, -, hguarded⟩ := (constant_iff_evaluates hconstant hlower v .null
    ⟨⟨"", .null, 0⟩, none, [], .empty⟩ ⟨.empty, []⟩).mp hv
  obtain ⟨w, hw⟩ := hguarded _ List.mem_cons_self
  cases hw

end Lowering

end EventRules
