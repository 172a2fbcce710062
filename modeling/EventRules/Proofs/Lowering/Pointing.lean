import EventRules.Lowering.Program
import EventRules.Proofs.Lowering.Expressions
import EventRules.Proofs.Rule.Pointing

/-!
# Where the errors of lowering point

If the tokens of an expression or a program stand at places that satisfy `P`, so does the place of every
error that lowering it ends with. The errors about a call point at its name, those about an expression
at its first token; what a chain lacks is said about its last call, and a chain has one.
-/

namespace EventRules
set_option autoImplicit false

open Routine

variable {P : Position → Prop}

/-- The place of an error, if it has one, satisfies `P`. -/
def LoweringError.Pinned (P : Position → Prop) (e : LoweringError) : Prop := ∀ p ∈ e.position?, P p

theorem LoweringError.pinned_at {e : LoweringError} {p : Position} (he : e.position? = some p) (h : P p) :
    e.Pinned P := by
  intro q hq
  rw [he] at hq
  cases hq
  exact h

/-- Typing speaks about a token of the expression. -/
theorem Expr.Pinned.type {e : Expr} (h : e.Pinned P) (constants : Keyed Value) :
    Answers (fun error => P error.position) (fun _ => True) (e.type constants) := by
  induction h with
  | @scalar value token htoken =>
    cases value with
    | integer n => trivial
    | float x => trivial
    | boolean b => trivial
    | text s => exact htoken
    | duration ms => exact htoken
  | @ident name hname =>
    rw [Expr.type]
    split
    · exact hname
    · split
      · trivial
      · exact hname
  | binary hleft _ ihleft ihright =>
    rw [Expr.type]
    apply ihleft.bind
    intro l _
    apply ihright.bind
    intro r _
    split
    · trivial
    · exact hleft.position
  | unary hoperand ihoperand =>
    rw [Expr.type]
    apply ihoperand.bind
    intro t _
    split
    · trivial
    · exact hoperand.position
  | compare hoperand => exact hoperand.position
  | range hopening => exact hopening
  | arrow hne hopening hbody => exact (Expr.Pinned.arrow hne hopening hbody).position
  | call hname => exact hname
  | chain hne hname hargs => exact (Expr.Pinned.chain hne hname hargs).position
  | lambda hparams hbody => exact (Expr.Pinned.lambda hparams hbody).position

namespace Lowering

variable {σ α : Type} {scope : Scope} {c : OperandCall}

/-- The errors of a lowering point at places that satisfy `P`. -/
abbrev Points (P : Position → Prop) (m : Routine σ LoweringError α) : Prop :=
  m.Meets (fun _ => True) (LoweringError.Pinned P) (fun _ => True)

/-- The same without a state. -/
abbrev Blames (P : Position → Prop) (r : Except LoweringError α) : Prop :=
  Answers (LoweringError.Pinned P) (fun _ => True) r

/-- A call with a name at a place that satisfies `P`, whose arguments say so of themselves. -/
structure CallPinned (P : Position → Prop) (c : OperandCall) : Prop where
  name : P c.name.position
  expr : ∀ a ∈ c.args, a.expr.Pinned P
  lower : ∀ a ∈ c.args, Points P a.lower

theorem Points.continued {β : Type} {m : Routine σ LoweringError α} {f : α → Routine σ LoweringError β}
    (hm : Points P m) (hf : ∀ a, Points P (f a)) : Points P (m >>= f) :=
  hm.bind fun a _ => hf a

theorem Points.except {r : Except LoweringError α} (h : Blames P r) : Points P (ofExcept r : Routine σ _ α) :=
  .ofExcept h

theorem blamed_at {e : LoweringError} {p : Position} (he : e.position? = some p) (h : P p) :
    Blames P (.error e : Except LoweringError α) :=
  LoweringError.pinned_at he h

theorem fault_pinned (h : P c.name.position) (f : ArgumentFault) : (fault c f).Pinned P :=
  LoweringError.pinned_at rfl h

/-! ### Arguments -/

theorem condition_points (h : CallPinned P c) {a : Operand} (ha : a ∈ c.args) :
    Points P (condition c a) := by
  unfold condition
  dsimp only
  split
  · exact Points.continued (.fail (fault_pinned h.name _)) fun _ => h.lower a ha
  · exact h.lower a ha

theorem amount_blames (h : P c.name.position) {e : Expr} (he : e.Pinned P) (scope : Scope) :
    Blames P (amount scope c e) := by
  unfold amount
  split
  · trivial
  · next name =>
    split
    · trivial
    · cases he with
      | ident hname => exact LoweringError.pinned_at rfl hname
  · exact fault_pinned h _

theorem integerArgument_blames (h : P c.name.position) {e : Expr} (he : e.Pinned P) (scope : Scope) :
    Blames P (integerArgument scope c e) := by
  unfold integerArgument
  apply (amount_blames h he scope).bind
  intro a _
  split
  · trivial
  · exact fault_pinned h _

theorem countArgument_blames (h : P c.name.position) {e : Expr} (he : e.Pinned P) (scope : Scope) :
    Blames P (countArgument scope c e) := by
  unfold countArgument
  apply (amount_blames h he scope).bind
  intro a _
  split
  · split
    · trivial
    · exact fault_pinned h _
  · exact fault_pinned h _

theorem durationArgument_blames (h : P c.name.position) {e : Expr} (he : e.Pinned P) (scope : Scope) :
    Blames P (durationArgument scope c e) := by
  unfold durationArgument
  apply (amount_blames h he scope).bind
  intro a _
  split
  · split
    · trivial
    · exact fault_pinned h _
  · split
    · trivial
    · exact fault_pinned h _
  · exact fault_pinned h _

theorem extentArgument_blames (h : P c.name.position) {e : Expr} (he : e.Pinned P) (scope : Scope) :
    Blames P (extentArgument scope c e) := by
  unfold extentArgument
  apply (amount_blames h he scope).bind
  intro a _
  split
  · split
    · trivial
    · exact fault_pinned h _
  · split
    · trivial
    · exact fault_pinned h _
  · exact fault_pinned h _

/-! ### Monitors -/

theorem monitorPlan_points (h : CallPinned P c) (kind : MonitorKind) :
    Points P (monitorPlan scope kind c) := by
  fun_cases monitorPlan scope kind c with
  | case1 test times hargs =>
    apply (condition_points h (a := test) (by simp [hargs])).continued
    intro code
    apply (Points.except (countArgument_blames h.name (h.expr times (by simp [hargs])) scope)).continued
    intro n
    exact .pure trivial
  | case2 test time hargs =>
    apply (condition_points h (a := test) (by simp [hargs])).continued
    intro code
    apply (Points.except (durationArgument_blames h.name (h.expr time (by simp [hargs])) scope)).continued
    intro ms
    exact .pure trivial
  | case3 time hargs =>
    apply (Points.except (durationArgument_blames h.name (h.expr time (by simp [hargs])) scope)).continued
    intro ms
    exact .pure trivial
  | case4 test hargs =>
    apply (condition_points h (a := test) (by simp [hargs])).continued
    intro code
    exact .pure trivial
  | case5 test unit hargs =>
    apply (condition_points h (a := test) (by simp [hargs])).continued
    intro code
    apply (Points.except (durationArgument_blames h.name (h.expr unit (by simp [hargs])) scope)).continued
    intro ms
    exact .pure trivial
  | case6 kind args => exact .fail (fault_pinned h.name _)

theorem drawName_points (stem : String) : Points P (drawName stem) := fun _ _ => ⟨trivial, trivial⟩

theorem emit_points (name : String) (body : FragmentBody) : Points P (emit name body) :=
  fun _ _ => ⟨trivial, trivial⟩

theorem monitor_points (h : CallPinned P c) (kind : MonitorKind) : Points P (monitor scope kind c) := by
  unfold monitor
  apply (drawName_points _).continued
  intro name
  apply (monitorPlan_points h kind).continued
  intro plan
  exact emit_points name _

/-! ### Chains -/

theorem plain_points (h : CallPinned P c) (e : Element) : Points P (plain c e) := by
  unfold plain
  split
  · exact .pure trivial
  · exact .fail (fault_pinned h.name _)

theorem filterElement_points (h : CallPinned P c) : Points P (filterElement scope c) := by
  fun_cases filterElement scope c with
  | case1 hargs => exact .pure trivial
  | case2 test hargs name hname => exact .pure trivial
  | case3 test hargs hname =>
    apply (condition_points h (a := test) (by simp [hargs])).continued
    intro code
    exact .pure trivial
  | case4 => exact .fail (fault_pinned h.name _)

theorem sampleElement_points (h : CallPinned P c) (wrap : Chain.Extent → Chain.Sampler) :
    Points P (sampleElement scope c wrap) := by
  fun_cases sampleElement scope c wrap with
  | case1 extent hargs =>
    apply (Points.except (extentArgument_blames h.name (h.expr extent (by simp [hargs])) scope)).continued
    intro n
    exact .pure trivial
  | case2 => exact .fail (fault_pinned h.name _)

theorem takeElement_points (h : CallPinned P c) : Points P (takeElement scope c) := by
  fun_cases takeElement scope c with
  | case1 start hargs =>
    apply (Points.except (integerArgument_blames h.name (h.expr start (by simp [hargs])) scope)).continued
    intro n
    exact .pure trivial
  | case2 start stop hargs =>
    apply (Points.except (integerArgument_blames h.name (h.expr start (by simp [hargs])) scope)).continued
    intro n
    apply (Points.except (integerArgument_blames h.name (h.expr stop (by simp [hargs])) scope)).continued
    intro m
    exact .pure trivial
  | case3 => exact .fail (fault_pinned h.name _)

theorem conditionElement_points (h : CallPinned P c) (wrap : Code → Element) :
    Points P (conditionElement c wrap) := by
  fun_cases conditionElement c wrap with
  | case1 test hargs =>
    apply (condition_points h (a := test) (by simp [hargs])).continued
    intro code
    exact .pure trivial
  | case2 => exact .fail (fault_pinned h.name _)

theorem extensionElement_points (h : CallPinned P c) : Points P (extensionElement scope c) := by
  unfold extensionElement
  dsimp only
  split
  · exact plain_points h _
  · exact plain_points h _
  · exact plain_points h _
  · exact .fail (LoweringError.pinned_at rfl h.name)

theorem element_points (h : CallPinned P c) : Points P (element scope c) := by
  unfold element
  cases c.strict with
  | true => exact .fail (fault_pinned h.name _)
  | false =>
    simp only [Bool.false_eq_true, if_false]
    split
    · exact filterElement_points h
    · exact plain_points h _
    · exact sampleElement_points h _
    · exact sampleElement_points h _
    · exact takeElement_points h
    · exact plain_points h _
    · exact plain_points h _
    · exact plain_points h _
    · exact plain_points h _
    · exact plain_points h _
    · exact plain_points h _
    · exact conditionElement_points h _
    · exact conditionElement_points h _
    · exact plain_points h _
    · exact extensionElement_points h

theorem push_blames {name : Token} (h : P name.position) (d : Draft) (e : Element) :
    Blames P (d.push name e) := by
  unfold Draft.push
  split
  · exact blamed_at rfl h
  · dsimp only
    generalize (if d.lacksFilter e then Phase.filter else d.phase) = phase
    split
    · trivial
    · exact blamed_at rfl h

theorem pipeline_points {calls : List OperandCall} (h : ∀ c ∈ calls, CallPinned P c) (d : Draft) :
    Points P (pipeline scope d calls) := by
  induction calls generalizing d with
  | nil => exact .pure trivial
  | cons c calls ih =>
    have hc := h c List.mem_cons_self
    have hpushed : ∀ e : Element, Points P (do
        let d ← ofExcept (d.push c.name e)
        pipeline scope d calls) := by
      intro e
      apply (Points.except (push_blames hc.name d e)).continued
      intro d'
      exact ih (fun c' hc' => h c' (List.mem_cons_of_mem _ hc')) d'
    unfold pipeline
    apply (element_points hc).continued
    intro e
    dsimp only
    split
    · have hwarn : Points P (warn c.name.text) := fun _ _ => ⟨trivial, trivial⟩
      exact hwarn.continued fun _ => hpushed e
    · exact hpushed e

theorem chainPlan_points {calls : List OperandCall} (hne : calls ≠ []) (h : ∀ c ∈ calls, CallPinned P c) :
    Points P (chainPlan scope calls) := by
  unfold chainPlan
  apply (pipeline_points h _).continued
  intro draft
  split
  · exact .pure trivial
  · refine .fail (LoweringError.pinned_at rfl ?_)
    rw [List.getLast?_eq_some_getLast hne]
    exact (h _ (List.getLast_mem hne)).name

theorem chain_points {calls : List OperandCall} (hne : calls ≠ []) (h : ∀ c ∈ calls, CallPinned P c) :
    Points P (chain scope calls) := by
  unfold chain
  apply (drawName_points _).continued
  intro name
  have hwithin : Points P (withinChain name (chainPlan scope calls)) := fun o _ =>
    chainPlan_points hne h { o with pendingChain := some name } trivial
  apply hwithin.continued
  intro plan
  exact emit_points name _

/-! ### Expressions -/

theorem call_points (h : CallPinned P c) : Points P (call scope c) := by
  have hchain : Points P (chain scope [c]) := by
    apply chain_points (List.cons_ne_nil _ _)
    intro c' hc'
    rw [List.mem_singleton.mp hc']
    exact h
  unfold call
  cases c.strict && c.name.text != "count" with
  | true => exact .fail (fault_pinned h.name _)
  | false =>
    simp only [Bool.false_eq_true, if_false]
    split
    · exact monitor_points h _
    · split
      · split
        · exact .fail (fault_pinned h.name _)
        · exact .pure trivial
      · split
        · exact hchain
        · exact .fail (LoweringError.pinned_at rfl h.name)

theorem code_blames {name : Token} (h : P name.position) (scope : Scope) : Blames P (scope.code name) := by
  unfold Scope.code
  split
  · trivial
  · split
    · trivial
    · exact LoweringError.pinned_at rfl h

theorem comparison_blames {e : Expr} (h : e.Pinned P) (op : CompareOp) (scope : Scope) :
    Blames P (scope.comparison op e) := by
  have hordered : ∀ (v : Value) (isNumber : Bool), Blames P (do
      if !op.isEquality && !isNumber then throw (.notOrdered op e.position)
      return Code.compare op (.literal v)) := by
    intro v isNumber
    dsimp only
    split
    · exact blamed_at rfl h.position
    · trivial
  unfold Scope.comparison
  dsimp only
  split
  · exact hordered _ _
  · next name =>
    cases h with
    | ident hname =>
      split
      · exact blamed_at rfl hname
      · split
        · exact hordered _ _
        · exact blamed_at rfl hname
  · exact blamed_at rfl h.position

theorem checkBounds_blames {opening closing : Token} {lower upper : Expr} (hopening : P opening.position)
    (hlower : lower.Pinned P) (hupper : upper.Pinned P) (scope : Scope) :
    Blames P (checkBounds scope opening lower upper closing) := by
  have htyping : ∀ error : TypingError, P error.position → (LoweringError.typing error).Pinned P :=
    fun error herror => LoweringError.pinned_at rfl herror
  unfold checkBounds
  apply ((hlower.type scope.constants).mapError htyping).bind
  intro l _
  apply ((hupper.type scope.constants).mapError htyping).bind
  intro u _
  split
  · exact LoweringError.pinned_at rfl hopening
  · trivial

theorem parameter_blames {params : List Token} {body : Expr} (hparams : ∀ t ∈ params, P t.position)
    (hbody : body.Pinned P) : Blames P (parameter params body) := by
  unfold parameter
  split
  · trivial
  · refine blamed_at rfl ?_
    cases hsecond : params[1]? with
    | none => exact hbody.position
    | some t => exact hparams t (List.mem_of_getElem? hsecond)

theorem callPinned {call : Call Expr} (hname : P call.position) (hargs : ∀ e ∈ call.args, e.Pinned P)
    (h : ∀ e ∈ call.args, Points P (lower scope e)) :
    CallPinned P ⟨call.name, call.strict, operands scope call.args⟩ := by
  rw [operands_eq_map]
  refine ⟨hname, ?_, ?_⟩
  · intro a ha
    obtain ⟨e, he, rfl⟩ := List.mem_map.mp ha
    exact hargs e he
  · intro a ha
    obtain ⟨e, he, rfl⟩ := List.mem_map.mp ha
    exact h e he

theorem lowerStages_points {stages : List (Stage Expr)} (hopening : ∀ s ∈ stages, P s.opening.position)
    (h : ∀ s ∈ stages, Points P (lower scope s.body)) : Points P (lowerStages scope stages) := by
  induction stages with
  | nil => exact .pure trivial
  | cons s stages ih =>
    obtain ⟨hs, hstages⟩ := List.forall_mem_cons.mp h
    obtain ⟨hplace, hplaces⟩ := List.forall_mem_cons.mp hopening
    unfold lowerStages
    split
    · exact .fail (LoweringError.pinned_at rfl hplace)
    · apply hs.continued
      intro code
      apply (ih hplaces hstages).continued
      intro codes
      exact .pure trivial

theorem lower_points {e : Expr} (h : e.Pinned P) (scope : Scope) : Points P (lower scope e) := by
  induction h generalizing scope with
  | scalar =>
    unfold lower
    exact .pure trivial
  | ident hname =>
    unfold lower
    exact .except (code_blames hname scope)
  | binary _ _ ihleft ihright =>
    unfold lower
    apply (ihleft scope).continued
    intro l
    apply (ihright scope).continued
    intro r
    exact .pure trivial
  | unary _ ih =>
    unfold lower
    apply (ih scope).continued
    intro code
    exact .pure trivial
  | compare hoperand =>
    unfold lower
    exact .except (comparison_blames hoperand _ scope)
  | range hopening hlower hupper ihlower ihupper =>
    unfold lower
    apply (Points.except (checkBounds_blames hopening hlower hupper scope)).continued
    intro _
    apply (ihlower scope).continued
    intro low
    apply (ihupper scope).continued
    intro high
    exact .pure trivial
  | arrow _ hopening _ ih =>
    unfold lower
    apply (drawName_points _).continued
    intro name
    apply Points.continued Meets.state
    intro o
    apply (lowerStages_points hopening fun s hs => ih s hs scope).continued
    intro codes
    apply Points.continued Meets.state
    intro u
    exact emit_points name _
  | @call c hname hargs ih =>
    obtain ⟨name, isStrict, args⟩ := c
    unfold lower
    exact call_points (callPinned hname hargs fun e he => ih e he scope)
  | @chain calls hne hname hargs ih =>
    unfold lower
    rw [operandCalls_eq_map]
    apply chain_points
    · exact fun h => hne (List.map_eq_nil_iff.mp h)
    · intro c hc
      obtain ⟨call, hcall, rfl⟩ := List.mem_map.mp hc
      rw [← operands_eq_map]
      exact callPinned (hname call hcall) (hargs call hcall) fun e he => ih call hcall e he scope
  | lambda hparams hbody ih =>
    unfold lower
    apply (Points.except (parameter_blames hparams hbody)).continued
    intro name
    exact ih _

theorem constant_blames {e : Expr} (h : e.Pinned P) (scope : Scope) : Blames P (constant scope e) := by
  unfold constant
  dsimp only
  split
  · exact LoweringError.pinned_at rfl h.position
  · apply (lower_points h scope .empty trivial).2.bind
    intro code _
    split
    · trivial
    · exact LoweringError.pinned_at rfl h.position

/-! ### Programs -/

open Building

theorem calculate_points {e : Expr} (h : e.Pinned P) (registry : Registry) :
    Points P (calculate registry e) := by
  unfold calculate
  apply Points.continued Meets.state
  intro b
  exact .except (constant_blames h _)

theorem define_points (name : String) (v : Value) : Points P (define name v) :=
  fun _ _ => ⟨trivial, trivial⟩

theorem rule_points {e : Expr} (h : e.Pinned P) (registry : Registry) : Points P (rule registry e) :=
  fun b _ => ⟨trivial, (lower_points h ⟨b.constants, registry, none⟩ b.output trivial).2⟩

theorem runStatements_of {registry : Registry} {ss : List Statement}
    (h : ∀ s ∈ ss, ∀ isEnd, Points P (runStatement registry isEnd s)) (isProgram : Bool) :
    Points P (runStatements registry isProgram ss) := by
  induction ss with
  | nil =>
    unfold runStatements
    exact .pure trivial
  | cons s ss ih =>
    obtain ⟨hs, hss⟩ := List.forall_mem_cons.mp h
    unfold runStatements
    apply (hs _).continued
    intro code
    split
    · exact .pure trivial
    · exact ih hss

theorem runStatement_points {s : Statement} (h : s.Pinned P) (registry : Registry) (isEnd : Bool) :
    Points P (runStatement registry isEnd s) := by
  induction h generalizing isEnd with
  | @declare name _ hvalue =>
    unfold runStatement
    apply (calculate_points hvalue registry).continued
    intro v
    apply (define_points name.text v).continued
    intro _
    exact .pure trivial
  | @assign name _ hname hvalue =>
    unfold runStatement
    apply Points.continued Meets.state
    intro b
    dsimp only
    split
    · exact .fail (LoweringError.pinned_at rfl hname)
    · apply (calculate_points hvalue registry).continued
      intro v
      apply (define_points name.text v).continued
      intro _
      exact .pure trivial
  | @branch condition taken otherwise hcondition _ _ ihtaken ihotherwise =>
    unfold runStatement
    apply (calculate_points hcondition registry).continued
    intro v
    split
    · exact runStatements_of ihtaken false
    · cases otherwise with
      | none =>
        unfold runOtherwise
        exact .pure trivial
      | some s =>
        unfold runOtherwise
        exact ihotherwise s rfl false
  | yield hrule =>
    unfold runStatement
    exact (rule_points hrule registry).map fun _ _ => trivial
  | block _ ih =>
    unfold runStatement
    exact runStatements_of ih false
  | bare hrule =>
    unfold runStatement
    split
    · exact .fail (LoweringError.pinned_at rfl hrule.position)
    · exact (rule_points hrule registry).map fun _ _ => trivial

/-- A program without a rule is missing it nowhere in particular. -/
theorem program_points {ss : Program} (h : ∀ s ∈ ss, s.Pinned P) (registry : Registry) :
    Points P (program registry ss) := by
  unfold program
  apply (runStatements_of (fun s hs isEnd => runStatement_points (h s hs) registry isEnd) true).continued
  intro code
  split
  · exact .pure trivial
  · exact .fail fun _ h => by cases h

end Lowering

end EventRules
