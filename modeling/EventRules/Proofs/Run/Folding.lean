import EventRules.Evaluation

/-!
# Folding and evaluation

Folding calculates both sides of every operator, evaluation skips the right one where the left one
decides. Where folding finds a value, evaluation finds it too and leaves the session alone. Folding
misses a value that evaluation finds if the code asks for something else than values, or if a side that
may be skipped has no value.
-/

namespace EventRules
set_option autoImplicit false

open Routine

theorem Routine.pure_then {σ ε α β : Type} (a : α) (f : α → Routine σ ε β) :
    (pure a >>= f : Routine σ ε β) = f a := rfl

theorem ok_of_toOption {ε α : Type} {r : Except ε α} {a : α} (h : r.toOption = some a) : r = .ok a := by
  cases r with
  | ok b => exact congrArg Except.ok (Option.some.inj h)
  | error e => cases h

theorem Code.fold_binary {op : BinaryOp} {left right : Code} {v : Value}
    (h : (Code.binary op left right).fold? = some v) :
    ∃ l r, left.fold? = some l ∧ right.fold? = some r ∧ Value.binary op l r = .ok v := by
  rw [Code.fold?] at h
  split at h
  · rename_i l r hl hr
    exact ⟨l, r, hl, hr, ok_of_toOption h⟩
  · cases h

theorem evaluate_of_fold {c : Code} {v : Value} (h : c.fold? = some v)
    (call : String → Nat → Frame → Run Bool) (subject : Value) (frame : Frame) :
    c.evaluate call subject frame = pure v := by
  induction c generalizing v with
  | literal w =>
    obtain rfl := Option.some.inj h
    rfl
  | subject => cases h
  | binary op left right ihl ihr =>
    obtain ⟨l, r, hl, hr, hv⟩ := Code.fold_binary h
    -- what a logical operator makes of both sides is what it says when it skips the right one
    cases op with
    | and =>
      obtain rfl := Except.ok.inj hv
      rw [Code.evaluate, ihl hl, ihr hr, pure_then]
      cases l.asBool with
      | false => rfl
      | true => rfl
    | or =>
      obtain rfl := Except.ok.inj hv
      rw [Code.evaluate, ihl hl, ihr hr, pure_then]
      cases l.asBool with
      | false => rfl
      | true => rfl
    | _ =>
      rw [Code.evaluate, ihl hl, ihr hr, pure_then, pure_then, hv]
      · rfl
      all_goals exact BinaryOp.noConfusion
  | not inner ih =>
    obtain ⟨w, hw, rfl⟩ := Option.map_eq_some_iff.mp h
    rw [Code.evaluate, ih hw, pure_then]
  | step up operand ih =>
    obtain ⟨w, hw, hv⟩ := Option.bind_eq_some_iff.mp h
    rw [Code.evaluate, ih hw, pure_then, ok_of_toOption hv]
    rfl
  | compare op operand ih => cases h
  | call fragment index => cases h
  | filter extension => cases h

/-! ### Values that folding misses -/

namespace Code

/-- Code made of values and operators alone. -/
def isClosed : Code → Bool
  | literal _ => true
  | binary _ left right => left.isClosed && right.isClosed
  | not inner => inner.isClosed
  | step _ operand => operand.isClosed
  | subject | compare _ _ | call _ _ | filter _ => false

/-- The right sides that the logical operators in the code may skip. -/
def guarded : Code → List Code
  | binary op left right =>
    let inside := left.guarded ++ right.guarded
    match op with
    | .and | .or => right :: inside
    | _ => inside
  | not inner => inner.guarded
  | step _ operand => operand.guarded
  | compare _ operand => operand.guarded
  | literal _ | subject | call _ _ | filter _ => []

theorem mem_guarded_binary {op : BinaryOp} {left right d : Code} :
    d ∈ (binary op left right).guarded ↔
      (d = right ∧ (op = .and ∨ op = .or)) ∨ d ∈ left.guarded ∨ d ∈ right.guarded := by
  cases op <;> simp [guarded]

theorem closed_of_fold {c : Code} {v : Value} (h : c.fold? = some v) : c.isClosed = true := by
  induction c generalizing v with
  | literal w => rfl
  | subject => cases h
  | binary op left right ihl ihr =>
    obtain ⟨l, r, hl, hr, -⟩ := fold_binary h
    rw [isClosed, ihl hl, ihr hr]
    rfl
  | not inner ih =>
    obtain ⟨w, hw, -⟩ := Option.map_eq_some_iff.mp h
    exact ih hw
  | step up operand ih =>
    obtain ⟨w, hw, -⟩ := Option.bind_eq_some_iff.mp h
    exact ih hw
  | compare op operand ih => cases h
  | call fragment index => cases h
  | filter extension => cases h

theorem fold_of_guarded {c d : Code} {v : Value} (h : c.fold? = some v) (hd : d ∈ c.guarded) :
    ∃ w, d.fold? = some w := by
  induction c generalizing v with
  | binary op left right ihl ihr =>
    obtain ⟨l, r, hl, hr, -⟩ := fold_binary h
    rcases mem_guarded_binary.mp hd with ⟨rfl, -⟩ | hd | hd
    · exact ⟨r, hr⟩
    · exact ihl hl hd
    · exact ihr hr hd
  | not inner ih =>
    obtain ⟨w, hw, -⟩ := Option.map_eq_some_iff.mp h
    exact ih hw hd
  | step up operand ih =>
    obtain ⟨w, hw, -⟩ := Option.bind_eq_some_iff.mp h
    exact ih hw hd
  | _ => cases h <;> cases hd

end Code

theorem calculated_ok {r : Except CalculationError Value} {s : Session} {v : Value}
    (h : ((Run.calculate r).run s).1 = .ok v) : r = .ok v := by
  cases r with
  | ok w => exact congrArg Except.ok (Except.ok.inj h)
  | error e => cases h

theorem Routine.first_ok {σ ε α β : Type} {m : Routine σ ε α} {f : α → Routine σ ε β} {s : σ}
    {b : β} (h : ((m >>= f).run s).1 = .ok b) : ∃ a, (m.run s).1 = .ok a := by
  obtain ⟨a, t, ha, -⟩ := bind_ok (Prod.ext h rfl)
  exact ⟨a, congrArg Prod.fst ha⟩

section

variable {call : String → Nat → Frame → Run Bool} {subject : Value} {frame : Frame} {s : Session}

/-- The code has a value: its evaluation in the session does not fail. -/
def Code.HasValue (call : String → Nat → Frame → Run Bool) (subject : Value) (frame : Frame)
    (s : Session) (c : Code) : Prop :=
  ∃ v, ((c.evaluate call subject frame).run s).1 = .ok v

theorem Code.hasValue_of_fold {c : Code} {v : Value} (h : c.fold? = some v) :
    c.HasValue call subject frame s := by
  refine ⟨v, ?_⟩
  rw [evaluate_of_fold h]
  rfl

/-- The left side of an operation that has a value has one. -/
theorem Code.HasValue.left {op : BinaryOp} {left right : Code}
    (h : (Code.binary op left right).HasValue call subject frame s) :
    left.HasValue call subject frame s := by
  obtain ⟨v, h⟩ := h
  cases op <;> exact first_ok h

/-- So has the right one, unless the operator may skip it. -/
theorem Code.HasValue.right {op : BinaryOp} {left right : Code} {l : Value}
    (h : (Code.binary op left right).HasValue call subject frame s) (hl : left.fold? = some l)
    (hop : op ≠ .and ∧ op ≠ .or) : right.HasValue call subject frame s := by
  obtain ⟨v, h⟩ := h
  rw [Code.evaluate, evaluate_of_fold hl, pure_then] at h
  · exact first_ok h
  · exact hop.1
  · exact hop.2

/-- An operation that has a value folds if its operands do. -/
theorem Code.HasValue.fold_binary {op : BinaryOp} {left right : Code} {l r : Value}
    (h : (Code.binary op left right).HasValue call subject frame s) (hl : left.fold? = some l)
    (hr : right.fold? = some r) : ∃ v, (Code.binary op left right).fold? = some v := by
  obtain ⟨v, h⟩ := h
  simp only [fold?, hl, hr]
  cases op with
  | and => exact ⟨_, rfl⟩
  | or => exact ⟨_, rfl⟩
  | _ =>
    rw [Code.evaluate, evaluate_of_fold hl, evaluate_of_fold hr, pure_then, pure_then] at h
    · rw [calculated_ok h]
      exact ⟨v, rfl⟩
    all_goals exact BinaryOp.noConfusion

theorem Code.HasValue.fold_step {up : Bool} {operand : Code} {w : Value}
    (h : (Code.step up operand).HasValue call subject frame s) (hw : operand.fold? = some w) :
    ∃ v, (Code.step up operand).fold? = some v := by
  obtain ⟨v, h⟩ := h
  rw [Code.evaluate, evaluate_of_fold hw, pure_then] at h
  exact ⟨v, by rw [fold?, hw, Option.bind_some, calculated_ok h]; rfl⟩

theorem Code.HasValue.not_operand {inner : Code}
    (h : (Code.not inner).HasValue call subject frame s) : inner.HasValue call subject frame s :=
  h.elim fun _ h => first_ok h

theorem Code.HasValue.step_operand {up : Bool} {operand : Code}
    (h : (Code.step up operand).HasValue call subject frame s) :
    operand.HasValue call subject frame s :=
  h.elim fun _ h => first_ok h

theorem Code.fold_of_values {c : Code} (hclosed : c.isClosed = true)
    (h : c.HasValue call subject frame s)
    (hguarded : ∀ d ∈ c.guarded, d.HasValue call subject frame s) : ∃ v, c.fold? = some v := by
  induction c with
  | literal v => exact ⟨v, rfl⟩
  | binary op left right ihl ihr =>
    rw [isClosed, Bool.and_eq_true] at hclosed
    have hinside : ∀ d, d ∈ left.guarded ∨ d ∈ right.guarded → d.HasValue call subject frame s :=
      fun d hd => hguarded d (mem_guarded_binary.mpr (.inr hd))
    obtain ⟨l, hl⟩ := ihl hclosed.1 h.left fun d hd => hinside d (.inl hd)
    have hright : right.HasValue call subject frame s := by
      by_cases hop : op = .and ∨ op = .or
      · exact hguarded right (mem_guarded_binary.mpr (.inl ⟨rfl, hop⟩))
      · exact h.right hl (not_or.mp hop)
    obtain ⟨r, hr⟩ := ihr hclosed.2 hright fun d hd => hinside d (.inr hd)
    exact h.fold_binary hl hr
  | not inner ih =>
    obtain ⟨w, hw⟩ := ih hclosed h.not_operand hguarded
    exact ⟨.boolean !w.asBool, by rw [fold?, hw]; rfl⟩
  | step up operand ih =>
    obtain ⟨w, hw⟩ := ih hclosed h.step_operand hguarded
    exact h.fold_step hw
  | _ => cases hclosed

/-- Folding finds a value exactly where the code is made of values and operators, evaluating it gives the
value, and every side that a logical operator may skip has a value as well. -/
theorem Code.fold_iff {c : Code} {v : Value} : c.fold? = some v ↔
    c.isClosed = true ∧ ((c.evaluate call subject frame).run s).1 = .ok v ∧
      ∀ d ∈ c.guarded, d.HasValue call subject frame s := by
  constructor
  · intro h
    refine ⟨closed_of_fold h, ?_, ?_⟩
    · rw [evaluate_of_fold h]
      rfl
    · intro d hd
      obtain ⟨w, hw⟩ := fold_of_guarded h hd
      exact hasValue_of_fold hw
  · rintro ⟨hclosed, h, hguarded⟩
    obtain ⟨w, hw⟩ := fold_of_values hclosed ⟨v, h⟩ hguarded
    rw [evaluate_of_fold hw] at h
    rw [hw, Except.ok.inj h]

end

end EventRules
