import EventRules.Proofs.Lowering.Expressions
import EventRules.Proofs.Rule.Induction
import EventRules.Proofs.Rule.Unplaced

/-!
# Lowering and the places of tokens

The places of the tokens are told in messages only. An expression and the same one with its tokens at
other places are lowered abreast: from every output both fail, or both come to the same code, and the
outputs they leave are the same. Chains stay abreast behind filters that differ.
-/

namespace EventRules
set_option autoImplicit false

open Routine

namespace Lowering

/-! ### Abreast -/

section

variable {ε α β : Type}

/-- An answer on both sides, or an error on both: errors tell places. -/
abbrev Together (r q : Except ε α) : Prop := SameOutcome (fun _ _ => True) Eq r q

theorem Together.bind {r q : Except ε α} {f g : α → Except ε β} (h : Together r q)
    (hf : ∀ a, Together (f a) (g a)) : Together (r >>= f) (q >>= g) := by
  cases h with
  | ok h =>
    subst h
    exact hf _
  | error _ => exact .error trivial

theorem Together.symm {r q : Except ε α} (h : Together r q) : Together q r := by
  cases h with
  | ok h => exact .ok h.symm
  | error _ => exact .error trivial

theorem Together.trans {r q w : Except ε α} (h : Together r q) (h' : Together q w) : Together r w := by
  cases h with
  | ok h => exact h ▸ h'
  | error _ =>
    cases h' with
    | error _ => exact .error trivial

protected theorem Together.mapError {δ : Type} {r q : Except ε α} {f : ε → δ} (h : Together r q) :
    Together (r.mapError f) (q.mapError f) := by
  cases h with
  | ok h => exact .ok h
  | error _ => exact .error trivial

theorem Together.guarded {p : Prop} [Decidable p] (a : α) (e e' : ε) :
    Together (if p then pure a else throw e : Except ε α) (if p then pure a else throw e') := by
  split
  · exact .ok rfl
  · exact .error trivial

end

variable {α β : Type} {Q : α → β → Prop} {m : Lower α} {n : Lower β}

/-- From every output both fail, or both succeed with related answers; they leave the same output. -/
abbrev Abreast (Q : α → β → Prop) (m : Lower α) (n : Lower β) : Prop :=
  Coupled Eq (fun _ _ => True) Q m n

namespace Abreast

theorem refl (m : Lower α) : Abreast Eq m m := by
  rintro o _ rfl
  refine ⟨rfl, ?_⟩
  cases (m.run o).1 with
  | ok a => exact .ok rfl
  | error e => exact .error trivial

theorem failed (e e' : LoweringError) : Abreast Q (fail e) (fail e') := Coupled.fail trivial

theorem imp {R : α → β → Prop} (h : Abreast Q m n) (hQ : ∀ a b, Q a b → R a b) : Abreast R m n :=
  fun o o' ho => ⟨(h o o' ho).1, (h o o' ho).2.imp hQ⟩

/-- The same work after both. -/
theorem then_same {m n : Lower α} (h : Abreast Eq m n) (f : α → Lower β) :
    Abreast Eq (m >>= f) (n >>= f) := Coupled.bind_eq h fun a => refl (f a)

theorem of_together {r q : Except LoweringError α} (h : Together r q) :
    Abreast Eq (ofExcept r) (ofExcept q) := Coupled.ofExcept h

protected theorem withinChain (h : Abreast Q m n) (chain : String) :
    Abreast Q (withinChain chain m) (withinChain chain n) := by
  rintro o _ rfl
  obtain ⟨hout, hoc⟩ := h { o with pendingChain := some chain } _ rfl
  exact ⟨congrArg (fun u : Output => { u with pendingChain := o.pendingChain }) hout, hoc⟩

theorem named {f g : String → Lower FragmentBody} (stem : String)
    (h : ∀ name, Abreast Eq (f name) (g name)) :
    Abreast Eq (Lowering.named stem f) (Lowering.named stem g) :=
  Coupled.bind_eq (refl (drawName stem)) fun name => Coupled.bind_eq (h name) fun _ => refl _

end Abreast

/-! ### Arguments -/

theorem isCondition_unplaced (e : Expr) : isCondition e.unplaced = isCondition e := by
  cases e with
  | scalar literal token => cases literal <;> rfl
  | call c => rw [Expr.unplaced_call]; rfl
  | _ => rfl

theorem filterExtension_unplaced (scope : Scope) (e : Expr) :
    filterExtension? scope e.unplaced = filterExtension? scope e := by
  cases e with
  | call c =>
    obtain ⟨name, isStrict, args⟩ := c
    cases args <;> rfl
  | _ => rfl

/-- An argument and the same one with its tokens at other places. -/
structure Operand.Moved (a b : Operand) : Prop where
  expr : b.expr = a.expr.unplaced
  lower : Abreast Eq a.lower b.lower

structure CallMoved (c c' : OperandCall) : Prop where
  name : c.name.text = c'.name.text
  strict : c.strict = c'.strict
  args : List.Forall₂ Operand.Moved c.args c'.args

variable {scope : Scope} {c c' : OperandCall} {a b : Operand}

theorem condition_moved (h : a.Moved b) : Abreast Eq (condition c a) (condition c' b) := by
  rw [condition, condition, h.expr, isCondition_unplaced]
  cases isCondition a.expr with
  | false => exact .failed _ _
  | true => exact h.lower

theorem amount_moved (h : a.Moved b) : Together (amount scope c a.expr) (amount scope c' b.expr) := by
  rw [h.expr]
  cases a.expr with
  | scalar literal token => exact .ok rfl
  | ident name =>
    have htext : name.unplaced.text = name.text := rfl
    rw [Expr.unplaced, amount, amount, htext]
    cases scope.constants.get? name.text with
    | some v => exact .ok rfl
    | none => exact .error trivial
  | _ => exact .error trivial

theorem integer_moved (h : a.Moved b) :
    Together (integerArgument scope c a.expr) (integerArgument scope c' b.expr) := by
  refine (amount_moved h).bind fun x => ?_
  cases x with
  | integer n => exact .ok rfl
  | _ => exact .error trivial

theorem count_moved (h : a.Moved b) :
    Together (countArgument scope c a.expr) (countArgument scope c' b.expr) := by
  refine (amount_moved h).bind fun x => ?_
  cases x with
  | integer n => exact .guarded _ _ _
  | _ => exact .error trivial

theorem duration_moved (h : a.Moved b) :
    Together (durationArgument scope c a.expr) (durationArgument scope c' b.expr) := by
  refine (amount_moved h).bind fun x => ?_
  cases x with
  | other => exact .error trivial
  | _ => exact .guarded _ _ _

theorem extent_moved (h : a.Moved b) :
    Together (extentArgument scope c a.expr) (extentArgument scope c' b.expr) := by
  refine (amount_moved h).bind fun x => ?_
  cases x with
  | other => exact .error trivial
  | _ => exact .guarded _ _ _

/-! ### Monitors -/

theorem condition_then_moved {γ : Type} {r q : Except LoweringError γ} {plan : Code → γ → Monitor.Plan}
    (h : a.Moved b) (hrq : Together r q) :
    Abreast Eq (condition c a >>= fun code => ofExcept r >>= fun n => pure (plan code n))
      (condition c' b >>= fun code => ofExcept q >>= fun n => pure (plan code n)) :=
  Coupled.bind_eq (condition_moved h) fun _ => Abreast.then_same (.of_together hrq) _

theorem monitorPlan_moved (h : CallMoved c c') (kind : MonitorKind) :
    Abreast Eq (monitorPlan scope kind c) (monitorPlan scope kind c') := by
  obtain ⟨name, isStrict, args⟩ := c
  obtain ⟨name', isStrict', args'⟩ := c'
  obtain ⟨-, rfl, hargs⟩ := h
  cases kind with
  | count =>
    rcases hargs with _ | ⟨htest, _ | ⟨htimes, _ | _⟩⟩
    · exact .failed _ _
    · exact .failed _ _
    · exact condition_then_moved htest (count_moved htimes)
    · exact .failed _ _
  | keep =>
    rcases hargs with _ | ⟨htest, _ | ⟨htime, _ | _⟩⟩
    · exact .failed _ _
    · exact .failed _ _
    · exact condition_then_moved htest (duration_moved htime)
    · exact .failed _ _
  | delay =>
    rcases hargs with _ | ⟨htime, _ | _⟩
    · exact .failed _ _
    · exact Abreast.then_same (.of_together (duration_moved htime)) _
    · exact .failed _ _
  | slope =>
    rcases hargs with _ | ⟨htest, _ | ⟨hunit, _ | _⟩⟩
    · exact .failed _ _
    · exact Abreast.then_same (condition_moved htest) _
    · exact condition_then_moved htest (duration_moved hunit)
    · exact .failed _ _

theorem monitor_moved (h : CallMoved c c') (kind : MonitorKind) :
    Abreast Eq (monitor scope kind c) (monitor scope kind c') := by
  rw [monitor_eq_named, monitor_eq_named, h.name]
  exact .named _ fun _ => Coupled.map (monitorPlan_moved h kind) fun _ _ hplan => congrArg _ hplan

/-! ### Elements of chains -/

theorem plain_moved (h : CallMoved c c') (e : Element) : Abreast Eq (plain c e) (plain c' e) := by
  obtain ⟨name, isStrict, args⟩ := c
  obtain ⟨name', isStrict', args'⟩ := c'
  rcases h.args with _ | ⟨_, _⟩
  · exact .refl _
  · exact .failed _ _

theorem filterElement_moved (h : CallMoved c c') :
    Abreast Eq (filterElement scope c) (filterElement scope c') := by
  obtain ⟨name, isStrict, args⟩ := c
  obtain ⟨name', isStrict', args'⟩ := c'
  rcases h.args with _ | ⟨htest, _ | _⟩
  · exact .refl _
  · simp only [filterElement, htest.expr, filterExtension_unplaced]
    split
    · exact .refl _
    · exact Abreast.then_same (condition_moved htest) _
  · exact .failed _ _

theorem sampleElement_moved (h : CallMoved c c') (wrap : Chain.Extent → Chain.Sampler) :
    Abreast Eq (sampleElement scope c wrap) (sampleElement scope c' wrap) := by
  obtain ⟨name, isStrict, args⟩ := c
  obtain ⟨name', isStrict', args'⟩ := c'
  rcases h.args with _ | ⟨hextent, _ | _⟩
  · exact .failed _ _
  · exact Abreast.then_same (.of_together (extent_moved hextent)) _
  · exact .failed _ _

theorem takeElement_moved (h : CallMoved c c') :
    Abreast Eq (takeElement scope c) (takeElement scope c') := by
  obtain ⟨name, isStrict, args⟩ := c
  obtain ⟨name', isStrict', args'⟩ := c'
  rcases h.args with _ | ⟨hstart, _ | ⟨hstop, _ | _⟩⟩
  · exact .failed _ _
  · exact Abreast.then_same (.of_together (integer_moved hstart)) _
  · refine Coupled.bind_eq (Abreast.of_together (integer_moved hstart)) fun _ => ?_
    exact Abreast.then_same (.of_together (integer_moved hstop)) _
  · exact .failed _ _

theorem conditionElement_moved (h : CallMoved c c') (wrap : Code → Element) :
    Abreast Eq (conditionElement c wrap) (conditionElement c' wrap) := by
  obtain ⟨name, isStrict, args⟩ := c
  obtain ⟨name', isStrict', args'⟩ := c'
  rcases h.args with _ | ⟨htest, _ | _⟩
  · exact .failed _ _
  · exact Abreast.then_same (condition_moved htest) _
  · exact .failed _ _

theorem extensionElement_moved (h : CallMoved c c') :
    Abreast Eq (extensionElement scope c) (extensionElement scope c') := by
  rw [extensionElement, extensionElement, h.name]
  cases scope.registry.kind? c'.name.text with
  | none => exact .failed _ _
  | some kind => cases kind <;> exact plain_moved h _

theorem element_moved (h : CallMoved c c') : Abreast Eq (element scope c) (element scope c') := by
  rw [element, element, h.strict, h.name]
  cases c'.strict with
  | true => exact .failed _ _
  | false =>
    simp only [Bool.false_eq_true, if_false]
    split
    · exact filterElement_moved h
    · exact plain_moved h _
    · exact sampleElement_moved h _
    · exact sampleElement_moved h _
    · exact takeElement_moved h
    · exact plain_moved h _
    · exact plain_moved h _
    · exact plain_moved h _
    · exact plain_moved h _
    · exact plain_moved h _
    · exact plain_moved h _
    · exact conditionElement_moved h _
    · exact conditionElement_moved h _
    · exact plain_moved h _
    · exact extensionElement_moved h

/-! ### Chains -/

section

variable {front front' : List Test}

/-- The second draft begins with other filters. The token of its last element is told in messages only. -/
def Draft.Beside (front front' : List Test) (d d' : Draft) : Prop :=
  ∃ later last, d.filters = front ++ later ∧ d' = { d with filters := front' ++ later, last }

def PlanBeside (front front' : List Test) (p q : Chain.Plan) : Prop :=
  ∃ later, p.filters = front ++ later ∧ q = { p with filters := front' ++ later }

theorem push_beside {d d' : Draft} (h : d.Beside front front' d') (name name' : Token) (e : Element) :
    SameOutcome (fun _ _ => True) (Draft.Beside front front') (d.push name e) (d'.push name' e) := by
  obtain ⟨later, last, hfilters, rfl⟩ := h
  have hbefore : Draft.samplerBefore { d with filters := front' ++ later, last } e = d.samplerBefore e := rfl
  have hlacks : Draft.lacksFilter { d with filters := front' ++ later, last } e = d.lacksFilter e := rfl
  rw [Draft.push, Draft.push, hbefore, hlacks]
  cases d.samplerBefore e with
  | some existing => exact .error trivial
  | none =>
    dsimp only
    generalize (if d.lacksFilter e = true then Phase.filter else d.phase) = phase
    split
    · refine .ok ?_
      cases e with
      | filter test =>
        refine ⟨later ++ test.toList, some name', ?_, ?_⟩
        · simp only [Draft.record, hfilters, List.append_assoc]
        · simp only [Draft.record, List.append_assoc]
      | _ => exact ⟨later, some name', hfilters, rfl⟩
    · exact .error trivial

/-- Calls under one name with elements that are lowered abreast. -/
structure ElementsAbreast (scope : Scope) (c c' : OperandCall) : Prop where
  name : c.name.text = c'.name.text
  element : Abreast Eq (element scope c) (element scope c')

theorem pipeline_beside {calls calls' : List OperandCall}
    (h : List.Forall₂ (ElementsAbreast scope) calls calls') {d d' : Draft}
    (hd : d.Beside front front' d') :
    Abreast (Draft.Beside front front') (pipeline scope d calls) (pipeline scope d' calls') := by
  induction h generalizing d d' with
  | nil => exact Coupled.pure hd
  | @cons c c' cs cs' hc _ ih =>
    rw [pipeline, pipeline]
    refine Coupled.bind_eq hc.element fun e => ?_
    have hlacks : d'.lacksFilter e = d.lacksFilter e := by
      obtain ⟨later, last, -, rfl⟩ := hd
      rfl
    have hpush : Abreast (Draft.Beside front front')
        (ofExcept (d.push c.name e) >>= fun y => pipeline scope y cs)
        (ofExcept (d'.push c'.name e) >>= fun y => pipeline scope y cs') :=
      Coupled.bind (Coupled.ofExcept (push_beside hd _ _ e)) fun _ _ hy => ih hy
    rw [hlacks, hc.name]
    cases d.lacksFilter e with
    | true => exact Coupled.bind_eq (Abreast.refl (warn c'.name.text)) fun _ => hpush
    | false => exact hpush

theorem planBeside {d d' : Draft} (h : d.Beside front front' d') (error error' : LoweringError) :
    Abreast (PlanBeside front front')
      (match d.plan? with | some plan => pure plan | none => fail error)
      (match d'.plan? with | some plan => pure plan | none => fail error') := by
  obtain ⟨later, last, hfilters, rfl⟩ := h
  rw [Draft.plan?, Draft.plan?]
  cases d.aggregation with
  | none => exact .failed _ _
  | some aggregation =>
    cases d.verdict with
    | none => exact .failed _ _
    | some verdict => exact Coupled.pure ⟨later, hfilters, rfl⟩

end

theorem chain_moved {calls calls' : List OperandCall} (h : List.Forall₂ CallMoved calls calls') :
    Abreast Eq (chain scope calls) (chain scope calls') := by
  have hplan : Abreast Eq (chainPlan scope calls) (chainPlan scope calls') := by
    have hempty : Draft.empty.Beside [] [] Draft.empty := ⟨[], none, rfl, rfl⟩
    have helements : List.Forall₂ (ElementsAbreast scope) calls calls' :=
      h.imp fun _ _ hc => ⟨hc.name, element_moved hc⟩
    refine Coupled.bind (pipeline_beside helements hempty) fun d d' hd => ?_
    refine Abreast.imp (planBeside hd _ _) ?_
    rintro p q ⟨later, hfilters, rfl⟩
    rw [← hfilters]
  rw [chain_eq_named, chain_eq_named]
  exact .named _ fun name => Coupled.map (hplan.withinChain name) fun _ _ hp => congrArg _ hp

theorem callMoved (h : CallMoved c c') : Abreast Eq (call scope c) (call scope c') := by
  have hempties : ∀ {as bs : List Operand}, List.Forall₂ Operand.Moved as bs → as.isEmpty = bs.isEmpty := by
    rintro _ _ (_ | _) <;> rfl
  have hempty := hempties h.args
  rw [call, call, h.strict, h.name, hempty]
  cases c'.strict && c'.name.text != "count" with
  | true => exact .failed _ _
  | false =>
    simp only [Bool.false_eq_true, if_false]
    cases MonitorKind.ofName? c'.name.text with
    | some kind => exact monitor_moved h kind
    | none =>
      dsimp only
      split
      · cases c'.args.isEmpty with
        | true => exact .refl _
        | false => exact .failed _ _
      · split
        · exact chain_moved (.cons h .nil)
        · exact .failed _ _

/-! ### Expressions -/

theorem anyContainsArrow_unplaced {es : List Expr}
    (h : ∀ e ∈ es, e.unplaced.containsArrow = e.containsArrow) :
    Expr.anyContainsArrow (es.map Expr.unplaced) = Expr.anyContainsArrow es := by
  induction es with
  | nil => rfl
  | cons e es ih =>
    rw [List.map_cons, Expr.anyContainsArrow, Expr.anyContainsArrow, h e List.mem_cons_self,
      ih fun e he => h e (List.mem_cons_of_mem _ he)]

theorem anyCallContainsArrow_unplaced {calls : List (Call Expr)}
    (h : ∀ c ∈ calls, ∀ e ∈ c.args, e.unplaced.containsArrow = e.containsArrow) :
    Expr.anyCallContainsArrow (calls.map Call.unplaced) = Expr.anyCallContainsArrow calls := by
  induction calls with
  | nil => rfl
  | cons c calls ih =>
    rw [List.map_cons, Call.unplaced, Expr.anyCallContainsArrow, Expr.anyCallContainsArrow,
      anyContainsArrow_unplaced (h c List.mem_cons_self), ih fun c hc => h c (List.mem_cons_of_mem _ hc)]

theorem containsArrow_unplaced (e : Expr) : e.unplaced.containsArrow = e.containsArrow := by
  induction e using Expr.induct with
  | scalar value token => rfl
  | ident name => rfl
  | binary op left right ihl ihr => rw [Expr.unplaced, Expr.containsArrow, ihl, ihr, Expr.containsArrow]
  | unary op operand ih => rw [Expr.unplaced, Expr.containsArrow, ih, Expr.containsArrow]
  | compare op operand ih => rw [Expr.unplaced, Expr.containsArrow, ih, Expr.containsArrow]
  | range opening below above closing ihl ihu =>
    rw [Expr.unplaced, Expr.containsArrow, ihl, ihu, Expr.containsArrow]
  | arrow stages => rfl
  | call c ih =>
    rw [Expr.unplaced_call, Call.unplaced, Expr.containsArrow, Expr.containsArrow]
    exact anyContainsArrow_unplaced ih
  | chain calls ih =>
    rw [Expr.unplaced_chain, Expr.containsArrow, Expr.containsArrow]
    exact anyCallContainsArrow_unplaced ih
  | lambda params body ih => rw [Expr.unplaced, Expr.containsArrow, ih, Expr.containsArrow]

theorem type_unplaced (constants : Keyed Value) (e : Expr) :
    Together (e.type constants) (e.unplaced.type constants) := by
  induction e using Expr.induct with
  | scalar value token =>
    cases value with
    | text _ => exact .error trivial
    | duration _ => exact .error trivial
    | _ => exact .ok rfl
  | ident name =>
    have htext : name.unplaced.text = name.text := rfl
    rw [Expr.unplaced, Expr.type, Expr.type, htext]
    cases constants.get? name.text with
    | none => exact .error trivial
    | some v =>
      dsimp only
      cases ValueType.ofConstant? v with
      | some t => exact .ok rfl
      | none => exact .error trivial
  | binary op left right ihl ihr =>
    rw [Expr.unplaced, Expr.type, Expr.type]
    refine ihl.bind fun l => ihr.bind fun r => ?_
    cases op.type? l r with
    | some t => exact .ok rfl
    | none => exact .error trivial
  | unary op operand ih =>
    rw [Expr.unplaced, Expr.type, Expr.type]
    refine ih.bind fun t => ?_
    cases t with
    | integer => exact .ok rfl
    | _ => exact .error trivial
  | call c =>
    rw [Expr.unplaced_call]
    exact .error trivial
  | _ => exact .error trivial

theorem bounds_unplaced (scope : Scope) (opening : Token) (below above : Expr) (closing : Token) :
    Together (checkBounds scope opening below above closing)
      (checkBounds scope opening.unplaced below.unplaced above.unplaced closing.unplaced) := by
  refine (type_unplaced scope.constants below).mapError.bind fun l => ?_
  refine (type_unplaced scope.constants above).mapError.bind fun u => ?_
  cases !l.isNumeric || l != u with
  | true => exact .error trivial
  | false => exact .ok rfl

theorem judged_together (op : CompareOp) (v : Value) (isNumber : Bool) (e e' : LoweringError) :
    Together
      (do
        if !op.isEquality && !isNumber then throw e
        return .compare op (.literal v) : Except LoweringError Code)
      (do
        if !op.isEquality && !isNumber then throw e'
        return .compare op (.literal v)) := by
  cases !op.isEquality && !isNumber with
  | true => exact .error trivial
  | false => exact .ok rfl

theorem comparison_unplaced (scope : Scope) (op : CompareOp) (e : Expr) :
    Together (scope.comparison op e) (scope.comparison op e.unplaced) := by
  cases e with
  | scalar literal token => exact judged_together op _ _ _ _
  | ident name =>
    have htext : name.unplaced.text = name.text := rfl
    rw [Expr.unplaced, Scope.comparison, Scope.comparison]
    by_cases hp : scope.parameter = some name.text
    · simp only [htext, hp, if_true]
      exact .error trivial
    · simp only [htext, hp, if_false]
      cases scope.constants.get? name.text with
      | some v => exact judged_together op _ _ _ _
      | none => exact .error trivial
  | call c =>
    rw [Expr.unplaced_call]
    exact .error trivial
  | _ => exact .error trivial

theorem code_unplaced (scope : Scope) (name : Token) :
    Together (scope.code name) (scope.code name.unplaced) := by
  have htext : name.unplaced.text = name.text := rfl
  rw [Scope.code, Scope.code, htext]
  split
  · exact .ok rfl
  · split
    · exact .ok rfl
    · exact .error trivial

theorem parameter_unplaced (params : List Token) (body : Expr) :
    Together (parameter params body) (parameter (params.map Token.unplaced) body.unplaced) := by
  rcases params with _ | ⟨name, _ | ⟨name', others⟩⟩
  · exact .error trivial
  · exact .ok rfl
  · exact .error trivial

theorem stages_moved {stages : List (Stage Expr)}
    (h : ∀ s ∈ stages, Abreast Eq (lower scope s.body) (lower scope s.body.unplaced)) :
    Abreast Eq (lowerStages scope stages) (lowerStages scope (stages.map Stage.unplaced)) := by
  induction stages with
  | nil => exact .refl _
  | cons s stages ih =>
    obtain ⟨opening, body⟩ := s
    change Abreast Eq (lowerStages scope (⟨opening, body⟩ :: stages))
      (lowerStages scope (⟨opening.unplaced, body.unplaced⟩ :: stages.map Stage.unplaced))
    rw [lowerStages, lowerStages, containsArrow_unplaced]
    cases body.containsArrow with
    | true => exact .failed _ _
    | false =>
      refine Coupled.bind_eq (h _ List.mem_cons_self) fun code => ?_
      exact (ih fun s hs => h s (List.mem_cons_of_mem _ hs)).then_same _

theorem arrow_moved {stages : List (Stage Expr)}
    (h : ∀ s ∈ stages, Abreast Eq (lower scope s.body) (lower scope s.body.unplaced)) :
    Abreast Eq (lower scope (.arrow stages)) (lower scope (.arrow (stages.map Stage.unplaced))) := by
  rw [arrow_eq_named, arrow_eq_named]
  refine .named _ fun _ => Coupled.bind_eq (Abreast.refl state) fun before => ?_
  exact (stages_moved h).then_same _

theorem call_of_parts {c : Call Expr}
    (h : ∀ e ∈ c.args, Abreast Eq (lower scope e) (lower scope e.unplaced)) :
    CallMoved ⟨c.name, c.strict, c.args.map fun e => ⟨e, lower scope e⟩⟩
      ⟨c.unplaced.name, c.unplaced.strict, c.unplaced.args.map fun e => ⟨e, lower scope e⟩⟩ := by
  refine ⟨rfl, rfl, ?_⟩
  rw [Call.unplaced, List.map_map, List.forall₂_map_left_iff, List.forall₂_map_right_iff,
    List.forall₂_same]
  exact fun e he => ⟨rfl, h e he⟩

/-- Where the tokens of an expression stand makes no difference to its code. -/
theorem lower_unplaced (e : Expr) : ∀ scope : Scope,
    Abreast Eq (lower scope e) (lower scope e.unplaced) := by
  induction e using Expr.induct with
  | scalar value token =>
    intro scope
    exact .refl _
  | ident name =>
    intro scope
    exact .of_together (code_unplaced scope name)
  | binary op left right ihl ihr =>
    intro scope
    rw [Expr.unplaced, lower, lower]
    exact Coupled.bind_eq (ihl scope) fun l => (ihr scope).then_same _
  | unary op operand ih =>
    intro scope
    rw [Expr.unplaced, lower, lower]
    exact (ih scope).then_same _
  | compare op operand _ =>
    intro scope
    rw [Expr.unplaced, lower, lower]
    exact .of_together (comparison_unplaced scope op operand)
  | range opening below above closing ihl ihu =>
    intro scope
    rw [Expr.unplaced, lower, lower]
    refine Coupled.bind_eq (Abreast.of_together (bounds_unplaced scope opening below above closing))
      fun _ => ?_
    exact Coupled.bind_eq (ihl scope) fun low => (ihu scope).then_same _
  | arrow stages ih =>
    intro scope
    rw [Expr.unplaced_arrow]
    exact arrow_moved fun s hs => ih s hs scope
  | call c ih =>
    intro scope
    rw [Expr.unplaced_call, lower, lower, operands_eq_map, operands_eq_map]
    exact callMoved (call_of_parts fun e he => ih e he scope)
  | chain calls ih =>
    intro scope
    rw [Expr.unplaced_chain, lower, lower, operandCalls_eq_map, operandCalls_eq_map, List.map_map]
    refine chain_moved ?_
    rw [List.forall₂_map_left_iff, List.forall₂_map_right_iff, List.forall₂_same]
    exact fun c hc => call_of_parts fun e he => ih c hc e he scope
  | lambda params body ih =>
    intro scope
    rw [Expr.unplaced, lower, lower]
    exact Coupled.bind_eq (Abreast.of_together (parameter_unplaced params body)) fun name => ih _

theorem lower_of_unplaced {e e' : Expr} (h : e.unplaced = e'.unplaced) (scope : Scope) :
    Abreast Eq (lower scope e) (lower scope e') := by
  rintro o _ rfl
  obtain ⟨hout, hoc⟩ := lower_unplaced e scope o o rfl
  obtain ⟨hout', hoc'⟩ := lower_unplaced e' scope o o rfl
  rw [h] at hout hoc
  exact ⟨hout.trans hout'.symm, Together.trans hoc (Together.symm hoc')⟩

end Lowering

end EventRules
