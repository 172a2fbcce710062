import EventRules.Proofs.Lowering.Tables

/-!
# Strict markers

The strict marker makes a count one of matches without a miss between them. Lowering keeps the strict
calls of an expression: they are, one for one and in the order in which they are lowered, the strict
counts among the fragments that are added. The exception is a call of a filter extension that is the
whole argument of a filter of a chain: there only its name and its arguments are looked at.
-/

namespace EventRules
set_option autoImplicit false

/-- A call with the strict marker, and whether it is the whole argument of a filter of a chain. -/
structure Marked where
  call : Call Expr
  filters : Bool

/-- The name of a filter extension stands for the extension, with the marker or without. -/
def Marked.isIdle (registry : Registry) (m : Marked) : Bool :=
  m.filters && m.call.args.isEmpty && registry.isFilter m.call.name.text

/-- A filter with one argument. -/
def Call.filtersBy {Argument : Type} (c : Call Argument) : Bool :=
  c.name.text == "filter" && c.args.length == 1

namespace Expr

mutual

/-- The strict calls in an expression, those in the arguments of a call before the call itself;
`filters` says whether the expression is the whole argument of a filter of a chain. -/
def marked (filters : Bool) : Expr → List Marked
  | scalar _ _ | ident _ => []
  | binary _ left right => left.marked false ++ right.marked false
  | unary _ operand | compare _ operand => operand.marked false
  | range _ lower upper _ => lower.marked false ++ upper.marked false
  | arrow stages => markedStages stages
  | call ⟨name, strict, args⟩ =>
    markedArguments false args ++ if strict then [⟨⟨name, strict, args⟩, filters⟩] else []
  | chain calls => markedElements calls
  | lambda _ body => body.marked false

def markedStages : List (Stage Expr) → List Marked
  | [] => []
  | ⟨_, body⟩ :: stages => body.marked false ++ markedStages stages

def markedArguments (filters : Bool) : List Expr → List Marked
  | [] => []
  | e :: es => e.marked filters ++ markedArguments filters es

def markedElements : List (Call Expr) → List Marked
  | [] => []
  | ⟨name, strict, args⟩ :: calls =>
    markedArguments (Call.mk name strict args).filtersBy args ++
      (if strict then [⟨⟨name, strict, args⟩, false⟩] else []) ++ markedElements calls

end

theorem markedArguments_eq (filters : Bool) (es : List Expr) :
    markedArguments filters es = es.flatMap (marked filters) := by
  induction es with
  | nil => rfl
  | cons e es ih => rw [markedArguments, ih, List.flatMap_cons]

theorem markedStages_eq (stages : List (Stage Expr)) :
    markedStages stages = stages.flatMap fun s => s.body.marked false := by
  induction stages with
  | nil => rfl
  | cons s stages ih => rw [markedStages, ih, List.flatMap_cons]

/-- The strict calls of an element of a chain, which may be strict itself. -/
def markedElement (c : Call Expr) : List Marked :=
  c.args.flatMap (marked c.filtersBy) ++ if c.strict then [⟨c, false⟩] else []

theorem markedElements_eq (calls : List (Call Expr)) :
    markedElements calls = calls.flatMap markedElement := by
  induction calls with
  | nil => rfl
  | cons c calls ih => rw [markedElements, ih, markedArguments_eq, List.flatMap_cons, markedElement]

end Expr

def Monitor.Plan.isStrict : Monitor.Plan → Bool
  | count _ _ strict => strict
  | keep .. | delay .. | slope .. => false

def FragmentBody.isStrict : FragmentBody → Bool
  | monitor plan => plan.isStrict
  | chain _ | arrow _ => false

theorem FragmentBody.strict_count {body : FragmentBody} (h : body.isStrict = true) :
    ∃ condition times, body = .monitor (.count condition times true) := by
  cases body with
  | monitor plan =>
    cases plan with
    | count condition times isStrict =>
      obtain rfl : isStrict = true := h
      exact ⟨condition, times, rfl⟩
    | _ => cases h
  | _ => cases h

namespace Lowering

open Routine

variable {α β : Type} {scope : Scope} {o t u : Output} {marks marks' : List Marked}

/-- The call is a count, and lowering it where it stands ended with the fragment, a strict count, at the
place in the table that is then called. -/
structure KeptBy (scope : Scope) (table : List Fragment) (c : Call Expr) (f : Fragment) : Prop where
  name : c.name.text = "count"
  body : ∃ condition times, f.body = .monitor (.count condition times true)
  lowered : ∃ (parameter : Option String) (o u : Output), (lower { scope with parameter } (.call c)).run o =
      (.ok (.call f.name u.fragments.length), { u with fragments := u.fragments ++ [f] }) ∧
    u.fragments ++ [f] <+: table

theorem KeptBy.extend {table later : List Fragment} {c : Call Expr} {f : Fragment}
    (h : KeptBy scope table c f) (ht : table <+: later) : KeptBy scope later c f := by
  obtain ⟨hname, hbody, parameter, o, u, hrun, hprefix⟩ := h
  exact ⟨hname, hbody, parameter, o, u, hrun, hprefix.trans ht⟩

/-- The strict calls whose marker is looked at. -/
def heeded (registry : Registry) (marks : List Marked) : List (Call Expr) :=
  (marks.filter fun m => !m.isIdle registry).map Marked.call

theorem heeded_append (registry : Registry) (marks marks' : List Marked) :
    heeded registry (marks ++ marks') = heeded registry marks ++ heeded registry marks' := by
  simp only [heeded, List.filter_append, List.map_append]

/-- The marked calls are the strict counts among the fragments added between two outputs. -/
def Kept (scope : Scope) (marks : List Marked) (o u : Output) : Prop :=
  ∃ added, u.fragments = o.fragments ++ added ∧
    List.Forall₂ (KeptBy scope u.fragments) (heeded scope.registry marks)
      (added.filter fun f => f.body.isStrict)

namespace Kept

theorem unchanged (h : u.fragments = o.fragments) : Kept scope [] o u := by
  refine ⟨[], ?_, .nil⟩
  rw [h, List.append_nil]

theorem trans (h : Kept scope marks o t) (h' : Kept scope marks' t u) :
    Kept scope (marks ++ marks') o u := by
  obtain ⟨added, hadded, hkept⟩ := h
  obtain ⟨added', hadded', hkept'⟩ := h'
  refine ⟨added ++ added', ?_, ?_⟩
  · rw [hadded', hadded, List.append_assoc]
  · rw [heeded_append, List.filter_append]
    refine List.rel_append (hkept.imp fun _ _ h => h.extend ?_) hkept'
    rw [hadded']
    exact List.prefix_append _ _

/-- The rest of the output does not matter. -/
theorem of_fragments {o' u' : Output} (h : Kept scope marks o u) (ho : o'.fragments = o.fragments)
    (hu : u'.fragments = u.fragments) : Kept scope marks o' u' := by
  rw [Kept, ho, hu]
  exact h

/-- Markers that are not looked at make no difference. -/
theorem of_heeded (h : Kept scope marks o u)
    (heq : heeded scope.registry marks' = heeded scope.registry marks) : Kept scope marks' o u := by
  rw [Kept, heq]
  exact h

/-- A parameter gives no call another meaning than it has where it stands. -/
theorem of_parameter {parameter : Option String} (h : Kept { scope with parameter } marks o u) :
    Kept scope marks o u := by
  obtain ⟨added, hadded, hkept⟩ := h
  refine ⟨added, hadded, hkept.imp ?_⟩
  rintro c f ⟨hname, hbody, parameter', hlowered⟩
  exact ⟨hname, hbody, parameter', hlowered⟩

theorem emitted {f : Fragment} (h : Kept scope marks o t) (hf : f.body.isStrict = false) :
    Kept scope marks o { t with fragments := t.fragments ++ [f] } := by
  have hlast : Kept scope [] t { t with fragments := t.fragments ++ [f] } := by
    refine ⟨[f], rfl, ?_⟩
    rw [List.filter_cons_of_neg (by simp [hf])]
    exact .nil
  have hall := h.trans hlast
  rwa [List.append_nil] at hall

theorem counted {f : Fragment} {m : Marked} (h : Kept scope marks o t) (hf : f.body.isStrict = true)
    (hm : m.isIdle scope.registry = false) (hkept : KeptBy scope (t.fragments ++ [f]) m.call f) :
    Kept scope (marks ++ [m]) o { t with fragments := t.fragments ++ [f] } := by
  refine h.trans ⟨[f], rfl, ?_⟩
  have hadded : [f].filter (fun f => f.body.isStrict) = [f] := by simp [hf]
  have hheeded : heeded scope.registry [m] = [m.call] := by simp [heeded, hm]
  rw [hadded, hheeded]
  exact .cons hkept .nil

end Kept

/-- When the step succeeds, the marked calls are the strict counts among the fragments that it adds. -/
def Keeps (scope : Scope) (marks : List Marked) (m : Lower α) : Prop :=
  ∀ ⦃o u : Output⦄ ⦃a : α⦄, m.run o = (.ok a, u) → Kept scope marks o u

namespace Keeps

variable {m : Lower α}

theorem pure (a : α) : Keeps scope [] (Pure.pure a) := by
  intro o u b h
  cases h
  exact .unchanged rfl

theorem fail (e : LoweringError) : Keeps scope marks (Routine.fail e : Lower α) := by
  intro o u a h
  cases h

protected theorem ofExcept {r : Except LoweringError α} : Keeps scope [] (Routine.ofExcept r) := by
  intro o u a h
  cases h
  exact .unchanged rfl

theorem bind {f : α → Lower β} (h : Keeps scope marks m) (hf : ∀ a, Keeps scope marks' (f a)) :
    Keeps scope (marks ++ marks') (m >>= f) := by
  intro o u b hrun
  obtain ⟨a, t, hm, hrest⟩ := bind_ok hrun
  exact (h hm).trans (hf a hrest)

theorem ofExcept_bind {r : Except LoweringError α} {f : α → Lower β}
    (h : ∀ a, r = .ok a → Keeps scope marks (f a)) : Keeps scope marks (Routine.ofExcept r >>= f) := by
  cases r with
  | error e => exact fail e
  | ok a => exact h a rfl

theorem map (f : α → β) (h : Keeps scope marks m) : Keeps scope marks (f <$> m) := by
  have hbind : Keeps scope (marks ++ []) (f <$> m) := h.bind fun a => pure (f a)
  rwa [List.append_nil] at hbind

theorem warn (operator : String) : Keeps scope [] (Lowering.warn operator) := by
  intro o u a h
  cases h
  exact .unchanged rfl

protected theorem withinChain (h : Keeps scope marks m) (chain : String) :
    Keeps scope marks (withinChain chain m) := by
  intro o u a hrun
  have hinner : m.run { o with pendingChain := some chain } =
      (.ok a, (m.run { o with pendingChain := some chain }).2) := by
    have hanswer : (m.run { o with pendingChain := some chain }).1 = .ok a := congrArg Prod.fst hrun
    exact Prod.ext hanswer rfl
  exact (h hinner).of_fragments rfl (congrArg (fun r => r.2.fragments) hrun).symm

/-- What is lowered for a fragment, before it is emitted. -/
theorem named {stem : String} {body : String → Lower FragmentBody} {code : Code}
    (h : ∀ name, Keeps scope marks (body name)) (hrun : (Lowering.named stem body).run o = (.ok code, u)) :
    ∃ name b o' t, (body name).run o' = (.ok b, t) ∧ Kept scope marks o t ∧
      code = .call name t.fragments.length ∧ u = { t with fragments := t.fragments ++ [⟨name, b⟩] } := by
  rw [named_run] at hrun
  split at hrun
  · next b t hbody =>
    cases hrun
    exact ⟨_, b, _, t, hbody, (h _ hbody).of_fragments rfl rfl, rfl, rfl⟩
  · cases hrun

end Keeps

/-! ### Monitors -/

/-- The strict calls in the arguments of a call. -/
def argumentMarks (c : OperandCall) : List Marked := c.args.flatMap fun a => a.expr.marked false

def ArgumentsKeep (scope : Scope) (c : OperandCall) : Prop :=
  ∀ a ∈ c.args, Keeps scope (a.expr.marked false) a.lower

variable {c : OperandCall}

theorem condition_keeps {operand : Operand} (h : Keeps scope (operand.expr.marked false) operand.lower)
    (c : OperandCall) : Keeps scope (operand.expr.marked false) (condition c operand) := by
  rw [condition]
  cases isCondition operand.expr with
  | false => exact Keeps.fail _
  | true => exact h

/-- What a literal or a constant says is found without lowering it, and it holds no call. -/
theorem unmarked_of_amount {γ : Type} {e : Expr} {f : Amount → Except LoweringError γ} {n : γ}
    (h : (amount scope c e >>= f) = .ok n) (filters : Bool) : e.marked filters = [] := by
  cases e with
  | scalar _ _ => rfl
  | ident _ => rfl
  | _ => cases h

theorem amount_keeps {γ : Type} {e : Expr} {f : Amount → Except LoweringError γ} {k : γ → Lower α}
    {filters : Bool} (hk : ∀ n, Keeps scope [] (k n)) :
    Keeps scope (e.marked filters) (ofExcept (amount scope c e >>= f) >>= k) := by
  refine Keeps.ofExcept_bind ?_
  intro n hn
  rw [unmarked_of_amount hn]
  exact hk n

theorem monitorPlan_keeps (h : ArgumentsKeep scope c) (kind : MonitorKind) :
    Keeps scope (argumentMarks c) (monitorPlan scope kind c) := by
  fun_cases monitorPlan scope kind c with
  | case1 test times hargs =>
    simp only [argumentMarks, hargs, List.flatMap_cons, List.flatMap_nil, List.append_nil]
    refine (condition_keeps (h test (by simp [hargs])) c).bind fun code => ?_
    exact amount_keeps fun n => .pure _
  | case2 test time hargs =>
    simp only [argumentMarks, hargs, List.flatMap_cons, List.flatMap_nil, List.append_nil]
    refine (condition_keeps (h test (by simp [hargs])) c).bind fun code => ?_
    exact amount_keeps fun ms => .pure _
  | case3 time hargs =>
    simp only [argumentMarks, hargs, List.flatMap_cons, List.flatMap_nil, List.append_nil]
    exact amount_keeps fun ms => .pure _
  | case4 test hargs =>
    simp only [argumentMarks, hargs, List.flatMap_cons, List.flatMap_nil]
    exact (condition_keeps (h test (by simp [hargs])) c).bind fun code => .pure _
  | case5 test unit hargs =>
    simp only [argumentMarks, hargs, List.flatMap_cons, List.flatMap_nil, List.append_nil]
    refine (condition_keeps (h test (by simp [hargs])) c).bind fun code => ?_
    exact amount_keeps fun ms => .pure _
  | case6 kind args => exact Keeps.fail _

/-- Only a count is strict, and that only with the marker. -/
theorem monitorPlan_strict {kind : MonitorKind} {plan : Monitor.Plan}
    (h : (monitorPlan scope kind c).run o = (.ok plan, u)) :
    plan.isStrict = (decide (kind = .count) && c.strict) := by
  revert h
  fun_cases monitorPlan scope kind c with
  | case1 test times hargs =>
    intro h
    obtain ⟨code, t, -, h⟩ := bind_ok h
    obtain ⟨n, t, -, h⟩ := bind_ok h
    cases h
    simp [Monitor.Plan.isStrict]
  | case2 test time hargs =>
    intro h
    obtain ⟨code, t, -, h⟩ := bind_ok h
    obtain ⟨ms, t, -, h⟩ := bind_ok h
    cases h
    rfl
  | case3 time hargs =>
    intro h
    obtain ⟨ms, t, -, h⟩ := bind_ok h
    cases h
    rfl
  | case4 test hargs =>
    intro h
    obtain ⟨code, t, -, h⟩ := bind_ok h
    cases h
    rfl
  | case5 test unit hargs =>
    intro h
    obtain ⟨code, t, -, h⟩ := bind_ok h
    obtain ⟨ms, t, -, h⟩ := bind_ok h
    cases h
    rfl
  | case6 kind args =>
    intro h
    cases h

theorem monitor_keeps (h : ArgumentsKeep scope c) {kind : MonitorKind} {code : Code}
    (hrun : (monitor scope kind c).run o = (.ok code, u)) :
    ∃ f t, f.body.isStrict = (decide (kind = .count) && c.strict) ∧ Kept scope (argumentMarks c) o t ∧
      code = .call f.name t.fragments.length ∧ u = { t with fragments := t.fragments ++ [f] } := by
  rw [monitor_eq_named] at hrun
  obtain ⟨name, b, o', t, hbody, hkept, rfl, rfl⟩ :=
    Keeps.named (fun _ => (monitorPlan_keeps h kind).map FragmentBody.monitor) hrun
  obtain ⟨plan, t', hplan, hpure⟩ := bind_ok hbody
  cases hpure
  exact ⟨⟨name, .monitor plan⟩, t, monitorPlan_strict hplan, hkept, rfl, rfl⟩

/-- Every monitor takes an argument. -/
theorem not_monitor_of_none (hargs : c.args = []) {kind : MonitorKind} {code : Code} :
    (monitor scope kind c).run o ≠ (.ok code, u) := by
  intro h
  obtain ⟨name, t, -, h⟩ := bind_ok h
  obtain ⟨plan, t', h, -⟩ := bind_ok h
  cases kind <;> simp [monitorPlan, hargs] at h

/-! ### Elements of chains -/

/-- The strict calls in the arguments of an element of a chain. -/
def elementMarks (c : OperandCall) : List Marked := c.args.flatMap fun a => a.expr.marked c.filtersBy

theorem plain_keeps (e : Element) : Keeps scope (elementMarks c) (plain c e) := by
  rw [plain]
  cases hargs : c.args with
  | nil =>
    rw [elementMarks, hargs]
    exact .pure e
  | cons a as => exact .fail _

theorem sampleElement_keeps (wrap : Chain.Extent → Chain.Sampler) :
    Keeps scope (elementMarks c) (sampleElement scope c wrap) := by
  fun_cases sampleElement scope c wrap with
  | case1 extent hargs =>
    simp only [elementMarks, hargs, List.flatMap_cons, List.flatMap_nil, List.append_nil]
    exact amount_keeps fun n => .pure _
  | case2 => exact .fail _

theorem takeElement_keeps : Keeps scope (elementMarks c) (takeElement scope c) := by
  fun_cases takeElement scope c with
  | case1 start hargs =>
    simp only [elementMarks, hargs, List.flatMap_cons, List.flatMap_nil, List.append_nil]
    exact amount_keeps fun n => .pure _
  | case2 start stop hargs =>
    simp only [elementMarks, hargs, List.flatMap_cons, List.flatMap_nil, List.append_nil]
    refine Keeps.ofExcept_bind fun s hs => ?_
    rw [unmarked_of_amount hs]
    exact amount_keeps fun n => .pure _
  | case3 => exact .fail _

theorem extensionElement_keeps : Keeps scope (elementMarks c) (extensionElement scope c) := by
  rw [extensionElement]
  cases scope.registry.kind? c.name.text with
  | none => exact .fail _
  | some kind => cases kind <;> exact plain_keeps _

theorem not_filtersBy (hname : c.name.text ≠ "filter") : c.filtersBy = false := by
  simp [Call.filtersBy, hname]

theorem conditionElement_keeps (h : ArgumentsKeep scope c) (hname : c.name.text ≠ "filter")
    (wrap : Code → Element) : Keeps scope (elementMarks c) (conditionElement c wrap) := by
  fun_cases conditionElement c wrap with
  | case1 test hargs =>
    simp only [elementMarks, hargs, not_filtersBy hname, List.flatMap_cons, List.flatMap_nil,
      List.append_nil]
    exact (condition_keeps (h test (by simp [hargs])) c).map wrap
  | case2 => exact .fail _

/-- The marker of an argument that stands for a filter extension is not looked at. -/
theorem heeded_of_extension {e : Expr} {name : String} (h : filterExtension? scope e = some name) :
    heeded scope.registry (e.marked true) = [] := by
  revert h
  fun_cases filterExtension? scope e with
  | case1 token isStrict hfilter =>
    intro _
    cases isStrict with
    | true => simp [Expr.marked, Expr.markedArguments, heeded, Marked.isIdle, hfilter]
    | false => rfl
  | case2 token isStrict hfilter =>
    intro h
    cases h
  | case3 e hne =>
    intro h
    cases h

/-- Every other argument of a filter is lowered like any condition. -/
theorem heeded_of_condition {e : Expr} (h : filterExtension? scope e = none) :
    heeded scope.registry (e.marked true) = heeded scope.registry (e.marked false) := by
  cases e with
  | call c =>
    obtain ⟨token, isStrict, args⟩ := c
    rw [Expr.marked, Expr.marked, heeded_append, heeded_append]
    congr 1
    cases isStrict with
    | false => rfl
    | true =>
      cases args with
      | nil =>
        have hfilter : scope.registry.isFilter token.text = false := by
          by_contra hne
          simp [filterExtension?, hne] at h
        simp [heeded, Marked.isIdle, hfilter]
      | cons a as => rfl
  | _ => rfl

theorem filterElement_keeps (h : ArgumentsKeep scope c) (hname : c.name.text = "filter") :
    Keeps scope (elementMarks c) (filterElement scope c) := by
  have hfilters : ∀ {test : Operand}, c.args = [test] → c.filtersBy = true := by
    intro test hargs
    simp [Call.filtersBy, hname, hargs]
  fun_cases filterElement scope c with
  | case1 hargs =>
    rw [elementMarks, hargs]
    exact .pure _
  | case2 test hargs name hextension =>
    simp only [elementMarks, hargs, hfilters hargs, List.flatMap_cons, List.flatMap_nil, List.append_nil]
    intro o u e hrun
    exact (Keeps.pure _ hrun).of_heeded (heeded_of_extension hextension)
  | case3 test hargs hextension =>
    simp only [elementMarks, hargs, hfilters hargs, List.flatMap_cons, List.flatMap_nil, List.append_nil]
    intro o u e hrun
    have htest := condition_keeps (h test (by simp [hargs])) c
    exact (htest.map _ hrun).of_heeded (heeded_of_condition hextension)
  | case4 => exact .fail _

/-- A strict element is refused. -/
theorem element_keeps (h : ArgumentsKeep scope c) (own : List Marked) (hown : c.strict = false → own = []) :
    Keeps scope (elementMarks c ++ own) (element scope c) := by
  rw [element]
  cases hstrict : c.strict with
  | true => exact .fail _
  | false =>
    rw [hown hstrict, List.append_nil]
    simp only [Bool.false_eq_true, if_false]
    split
    · next hname => exact filterElement_keeps h hname
    · exact plain_keeps _
    · exact sampleElement_keeps _
    · exact sampleElement_keeps _
    · exact takeElement_keeps
    · exact plain_keeps _
    · exact plain_keeps _
    · exact plain_keeps _
    · exact plain_keeps _
    · exact plain_keeps _
    · exact plain_keeps _
    · next hname => exact conditionElement_keeps h (by simp [hname]) _
    · next hname => exact conditionElement_keeps h (by simp [hname]) _
    · exact plain_keeps _
    · exact extensionElement_keeps

/-! ### Chains -/

/-- What lowering a part keeps, where the part stands in a call or an element of a chain. -/
def PartsKeep (scope : Scope) (c : Call Expr) : Prop :=
  ∀ e ∈ c.args, Keeps scope (e.marked false) (lower scope e)

/-- The call with its arguments ready to be lowered. -/
def operandCall (scope : Scope) (c : Call Expr) : OperandCall := ⟨c.name, c.strict, operands scope c.args⟩

theorem argumentsKeep {c : Call Expr} (h : PartsKeep scope c) :
    ArgumentsKeep scope (operandCall scope c) := by
  rw [operandCall, operands_eq_map]
  intro a ha
  obtain ⟨e, he, rfl⟩ := List.mem_map.mp ha
  exact h e he

theorem argumentMarks_eq (scope : Scope) (c : Call Expr) :
    argumentMarks (operandCall scope c) = c.args.flatMap (Expr.marked false) := by
  rw [argumentMarks, operandCall, operands_eq_map, List.flatMap_map]

theorem elementMarks_eq (scope : Scope) (c : Call Expr) :
    elementMarks (operandCall scope c) = c.args.flatMap (Expr.marked c.filtersBy) := by
  have hfilters : (operandCall scope c).filtersBy = c.filtersBy := by
    simp only [operandCall, Call.filtersBy, operands_eq_map, List.length_map]
  rw [elementMarks, hfilters, operandCall, operands_eq_map, List.flatMap_map]

theorem pipeline_keeps {calls : List (Call Expr)} (h : ∀ c ∈ calls, PartsKeep scope c) (d : Draft) :
    Keeps scope (calls.flatMap Expr.markedElement) (pipeline scope d (operandCalls scope calls)) := by
  induction calls generalizing d with
  | nil => exact .pure d
  | cons c cs ih =>
    have hrest : ∀ d : Draft, Keeps scope (cs.flatMap Expr.markedElement)
        (pipeline scope d (operandCalls scope cs)) := ih fun c hc => h c (List.mem_cons_of_mem _ hc)
    have hown : (operandCall scope c).strict = false →
        (if c.strict then [⟨c, false⟩] else [] : List Marked) = [] := by
      intro hstrict
      exact if_neg (ne_true_of_eq_false hstrict)
    have helement := element_keeps (argumentsKeep (h c List.mem_cons_self)) _ hown
    rw [elementMarks_eq] at helement
    rw [List.flatMap_cons]
    change Keeps scope _ (pipeline scope d (operandCall scope c :: operandCalls scope cs))
    rw [pipeline]
    refine helement.bind fun e => ?_
    have hpushed : Keeps scope (cs.flatMap Expr.markedElement) (ofExcept (d.push c.name e) >>= fun d =>
        pipeline scope d (operandCalls scope cs)) := Keeps.ofExcept_bind fun d _ => hrest d
    cases d.lacksFilter e with
    | true => exact (Keeps.warn c.name.text).bind fun _ => hpushed
    | false => exact hpushed

theorem chainPlan_keeps {calls : List (Call Expr)} (h : ∀ c ∈ calls, PartsKeep scope c) :
    Keeps scope (calls.flatMap Expr.markedElement) (chainPlan scope (operandCalls scope calls)) := by
  have hplan : Keeps scope (calls.flatMap Expr.markedElement ++ [])
      (chainPlan scope (operandCalls scope calls)) := by
    refine (pipeline_keeps h .empty).bind fun d => ?_
    cases d.plan? with
    | some plan => exact .pure plan
    | none => exact .fail _
  rw [List.append_nil] at hplan
  exact hplan

theorem chain_keeps {calls : List (Call Expr)} (h : ∀ c ∈ calls, PartsKeep scope c) :
    Keeps scope (calls.flatMap Expr.markedElement) (chain scope (operandCalls scope calls)) := by
  intro o u code hrun
  rw [chain_eq_named] at hrun
  obtain ⟨name, b, o', t, hbody, hkept, rfl, rfl⟩ :=
    Keeps.named (fun name => ((chainPlan_keeps h).withinChain name).map FragmentBody.chain) hrun
  obtain ⟨plan, t', -, hpure⟩ := bind_ok hbody
  cases hpure
  exact hkept.emitted rfl

/-- One element does not make a plan, which has an aggregation and a verdict. -/
theorem unfinished_of_one {d : Draft} (h : (pipeline scope .empty [c]).run o = (.ok d, u)) :
    d.plan? = none := by
  obtain ⟨e, t, -, h⟩ := bind_ok h
  have hpushed : ∀ {t : Output}, (ofExcept (Draft.empty.push c.name e) >>= fun d =>
      pipeline scope d []).run t = (.ok d, u) → d.plan? = none := by
    intro t h
    obtain ⟨d', t', hpush, hend⟩ := bind_ok h
    obtain ⟨-, rfl⟩ := push_eq (congrArg Prod.fst hpush)
    cases hend
    cases e <;> rfl
  cases hl : Draft.empty.lacksFilter e with
  | true =>
    rw [hl] at h
    obtain ⟨_, t', -, h⟩ := bind_ok h
    exact hpushed h
  | false =>
    rw [hl] at h
    exact hpushed h

theorem not_chain_of_one {code : Code} : (chain scope [c]).run o ≠ (.ok code, u) := by
  intro h
  obtain ⟨name, plan, before, ⟨o', t, hplan⟩, -⟩ := chain_lowered h
  obtain ⟨d, t', hpipeline, hfinish⟩ := bind_ok hplan
  have hunfinished := unfinished_of_one hpipeline
  rw [hunfinished] at hfinish
  cases hfinish

/-! ### Expressions -/

theorem unmarked_call_keeps (h : ArgumentsKeep scope c) (hstrict : c.strict = false) :
    Keeps scope (argumentMarks c) (call scope c) := by
  rw [call, hstrict]
  simp only [Bool.false_and, Bool.false_eq_true, if_false]
  cases MonitorKind.ofName? c.name.text with
  | some kind =>
    intro o u code hrun
    obtain ⟨f, t, hf, hkept, -, rfl⟩ := monitor_keeps h hrun
    rw [hstrict, Bool.and_false] at hf
    exact hkept.emitted hf
  | none =>
    dsimp only
    split
    · cases hargs : c.args with
      | nil =>
        rw [argumentMarks, hargs]
        exact .pure _
      | cons a as => exact .fail _
    · split
      · intro o u code hrun
        exact absurd hrun not_chain_of_one
      · exact .fail _

/-- A strict call that is lowered is a count. -/
theorem strict_call_keeps {c : Call Expr} (h : PartsKeep scope c) (hstrict : c.strict = true)
    (filters : Bool) :
    Keeps scope (c.args.flatMap (Expr.marked false) ++ [⟨c, filters⟩]) (lower scope (.call c)) := by
  intro o u code hrun
  have hcall : (call scope (operandCall scope c)).run o = (.ok code, u) := by
    obtain ⟨name, isStrict, args⟩ := c
    exact hrun
  rw [call] at hcall
  have hname : c.name.text = "count" := by
    by_contra hne
    simp only [operandCall, hstrict, Bool.true_and, bne_iff_ne, ne_eq, hne, not_false_eq_true,
      if_true] at hcall
    cases hcall
  have hkind : MonitorKind.ofName? (operandCall scope c).name.text = some .count := by
    change MonitorKind.ofName? c.name.text = some .count
    rw [hname]
    rfl
  have hmonitor : (monitor scope .count (operandCall scope c)).run o = (.ok code, u) := by
    rw [hkind] at hcall
    simpa [operandCall, hname] using hcall
  have hidle : Marked.isIdle scope.registry ⟨c, filters⟩ = false := by
    cases hargs : c.args with
    | nil => exact absurd hmonitor (not_monitor_of_none (by rw [operandCall, hargs]; rfl))
    | cons a as => simp [Marked.isIdle, hargs]
  obtain ⟨f, t, hf, hkept, rfl, rfl⟩ := monitor_keeps (argumentsKeep h) hmonitor
  have hf : f.body.isStrict = true := hf.trans hstrict
  rw [argumentMarks_eq] at hkept
  refine hkept.counted hf hidle ⟨hname, FragmentBody.strict_count hf, scope.parameter, o, t, hrun, ?_⟩
  exact List.prefix_refl _

theorem stages_keep {stages : List (Stage Expr)}
    (h : ∀ s ∈ stages, Keeps scope (s.body.marked false) (lower scope s.body)) :
    Keeps scope (stages.flatMap fun s => s.body.marked false) (lowerStages scope stages) := by
  induction stages with
  | nil => exact .pure _
  | cons s stages ih =>
    obtain ⟨opening, body⟩ := s
    rw [lowerStages, List.flatMap_cons]
    cases body.containsArrow with
    | true => exact .fail _
    | false =>
      refine (h _ List.mem_cons_self).bind fun code => ?_
      exact (ih fun s hs => h s (List.mem_cons_of_mem _ hs)).map (code :: ·)

theorem lower_keeps (e : Expr) : ∀ scope : Scope, Keeps scope (e.marked false) (lower scope e) := by
  induction e using Expr.induct with
  | scalar value token =>
    intro scope
    exact .pure _
  | ident name =>
    intro scope
    exact .ofExcept
  | binary op left right ihl ihr =>
    intro scope
    exact (ihl scope).bind fun l => (ihr scope).map (Code.binary op l)
  | unary op operand ih =>
    intro scope
    exact (ih scope).map _
  | compare op operand ih =>
    intro scope o u code hrun
    have hcomparison : scope.comparison op operand = .ok code := congrArg Prod.fst hrun
    have hunmarked : operand.marked false = [] := by
      cases operand with
      | scalar _ _ => rfl
      | ident _ => rfl
      | _ => cases hcomparison
    rw [Expr.marked, hunmarked]
    exact Keeps.ofExcept hrun
  | range opening below above closing ihl ihu =>
    intro scope
    refine Keeps.ofExcept_bind fun _ _ => ?_
    exact (ihl scope).bind fun low => (ihu scope).map _
  | arrow stages ih =>
    intro scope o u code hrun
    have hstages := stages_keep fun s hs => ih s hs scope
    obtain ⟨name, codes, t, hcodes, -, hu⟩ := arrow_lowered hrun
    rw [Expr.marked, Expr.markedStages_eq]
    exact ((hstages hcodes).emitted rfl).of_fragments rfl hu
  | call c ih =>
    intro scope
    have hparts : PartsKeep scope c := fun e he => ih e he scope
    obtain ⟨name, isStrict, args⟩ := c
    rw [Expr.marked, Expr.markedArguments_eq]
    cases isStrict with
    | true => exact strict_call_keeps hparts rfl false
    | false =>
      have hcall := unmarked_call_keeps (argumentsKeep hparts) rfl
      rw [argumentMarks_eq] at hcall
      simp only [Bool.false_eq_true, if_false, List.append_nil]
      exact hcall
  | chain calls ih =>
    intro scope
    rw [Expr.marked, Expr.markedElements_eq, lower]
    exact chain_keeps fun c hc e he => ih c hc e he scope
  | lambda params body ih =>
    intro scope
    refine Keeps.ofExcept_bind fun name _ => ?_
    intro o u code hrun
    exact (ih { scope with parameter := some name } hrun).of_parameter

/-- When an expression is lowered, its strict calls, in the order in which they are lowered, are the
strict counts among the fragments that are added; each is a count, and no strict count comes from
elsewhere. Left out is only a call of a filter extension that is the whole argument of a filter of a
chain: its marker makes no difference. -/
theorem strict_calls_kept {scope : Scope} {e : Expr} {o u : Output} {code : Code}
    (h : (lower scope e).run o = (.ok code, u)) :
    ∃ added, u.fragments = o.fragments ++ added ∧
      List.Forall₂ (KeptBy scope u.fragments)
        (((e.marked false).filter fun m => !m.isIdle scope.registry).map Marked.call)
        (added.filter fun f => f.body.isStrict) :=
  lower_keeps e scope h

/-- The expression `filter(numericFilter!()).filter(count!(>0,2)).count().meet(>0)`. -/
def twiceMarked : Expr :=
  .chain
    [⟨⟨.name, "filter", ⟨0, 1, 1⟩⟩, false, [.call ⟨⟨.name, "numericFilter", ⟨7, 1, 8⟩⟩, true, []⟩]⟩,
      ⟨⟨.name, "filter", ⟨25, 1, 26⟩⟩, false,
        [.call ⟨⟨.name, "count", ⟨32, 1, 33⟩⟩, true,
          [.compare .greater (.scalar (.integer 0) ⟨.integer, "0", ⟨40, 1, 41⟩⟩),
            .scalar (.integer 2) ⟨.integer, "2", ⟨42, 1, 43⟩⟩]⟩]⟩,
      ⟨⟨.name, "count", ⟨46, 1, 47⟩⟩, false, []⟩,
      ⟨⟨.name, "meet", ⟨54, 1, 55⟩⟩, false,
        [.compare .greater (.scalar (.integer 0) ⟨.integer, "0", ⟨60, 1, 61⟩⟩)]⟩]

/-- Of the two markers that of the count is kept, and that of the extension is gone without an error. -/
theorem strict_calls_kept_beside_extension :
    (twiceMarked.marked false).map (fun m => (m.call.name.text, m.isIdle .standard)) =
      [("numericFilter", true), ("count", false)] ∧
    ∃ u f, (lower ⟨.empty, .standard, none⟩ twiceMarked).run .empty = (.ok (.call "chain_1" 1), u) ∧
      u.fragments.map Fragment.shown = ["count_2() := count!((value > 0), 2)",
        "chain_1() := numericFilter().filter(count_2()).collect().count().meet((value > 0))"] ∧
      u.fragments.filter (fun f => f.body.isStrict) = [f] ∧
      ∃ m ∈ twiceMarked.marked false, KeptBy ⟨.empty, .standard, none⟩ u.fragments m.call f := by
  refine ⟨by decide +kernel, ?_⟩
  obtain ⟨u, hrun⟩ : ∃ u, (lower ⟨.empty, .standard, none⟩ twiceMarked).run .empty =
      (.ok (.call "chain_1" 1), u) := ⟨_, rfl⟩
  have hshown : u.fragments.map Fragment.shown = ["count_2() := count!((value > 0), 2)",
      "chain_1() := numericFilter().filter(count_2()).collect().count().meet((value > 0))"] := by
    rw [show u = ((lower ⟨.empty, .standard, none⟩ twiceMarked).run .empty).2 by rw [hrun]]
    decide +kernel
  obtain ⟨added, hadded, hkept⟩ := strict_calls_kept hrun
  obtain rfl : u.fragments = added := hadded
  obtain ⟨m, hm, hheeded⟩ : ∃ m ∈ twiceMarked.marked false, ((twiceMarked.marked false).filter fun m =>
      !m.isIdle .standard).map Marked.call = [m.call] := ⟨_, List.mem_cons_of_mem _ List.mem_cons_self, rfl⟩
  rw [hheeded] at hkept
  obtain ⟨f, fs, hf, hrest, hfragments⟩ := List.forall₂_cons_left_iff.mp hkept
  obtain rfl := List.forall₂_nil_left_iff.mp hrest
  exact ⟨u, f, hrun, hshown, hfragments, m, hm, hf⟩

end Lowering

end EventRules
