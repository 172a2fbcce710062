import EventRules.Proofs.Lowering.Expressions
import EventRules.Proofs.Matching.Diagnosis
import EventRules.Proofs.Matching.Runs

/-!
# Every arrow has a stage

The grammar knows no empty arrow, and lowering an arrow lowers its stages one by one. So no fragment of
a compiled rule is an arrow without stages.
-/

namespace EventRules
set_option autoImplicit false

open Routine

/-- If the fragment is an arrow, then it has a stage. -/
def Fragment.Staged (f : Fragment) : Prop := ∀ plan, f.body = .arrow plan → plan.stages ≠ []

namespace Lowering

variable {P : Position → Prop} {scope : Scope} {c : OperandCall} {α : Type}

/-- With fragments that are staged before, there are no others behind. -/
abbrev Stages (m : Lower α) : Prop := m.Keeps fun o => ∀ f ∈ o.fragments, f.Staged

namespace Stages

theorem draw (stem : String) : Stages (drawName stem) := fun _ h => ⟨h, trivial⟩

theorem emit {name : String} {body : FragmentBody} (h : Fragment.Staged ⟨name, body⟩) :
    Stages (emit name body) := by
  intro o ho
  refine ⟨?_, trivial⟩
  intro f hf
  rcases List.mem_append.mp hf with hf | hf
  · exact ho f hf
  · rw [List.mem_singleton.mp hf]
    exact h

end Stages

/-! ### Monitors and chains -/

section

variable (h : ∀ a ∈ c.args, Stages a.lower)
include h

theorem condition_stages {a : Operand} (ha : a ∈ c.args) : Stages (condition c a) := by
  unfold condition
  dsimp only
  split
  · exact (Routine.Keeps.fail _).bind fun _ => h a ha
  · exact h a ha

theorem monitorPlan_stages (kind : MonitorKind) : Stages (monitorPlan scope kind c) := by
  fun_cases monitorPlan scope kind c with
  | case1 test times hargs =>
    apply (condition_stages h (a := test) (by simp [hargs])).bind
    exact fun code => (Routine.Keeps.ofExcept _).bind fun n => .pure _
  | case2 test time hargs =>
    apply (condition_stages h (a := test) (by simp [hargs])).bind
    exact fun code => (Routine.Keeps.ofExcept _).bind fun ms => .pure _
  | case3 time hargs => exact (Routine.Keeps.ofExcept _).bind fun ms => .pure _
  | case4 test hargs => exact (condition_stages h (a := test) (by simp [hargs])).bind fun code => .pure _
  | case5 test unit hargs =>
    apply (condition_stages h (a := test) (by simp [hargs])).bind
    exact fun code => (Routine.Keeps.ofExcept _).bind fun ms => .pure _
  | case6 kind args => exact .fail _

theorem monitor_stages (kind : MonitorKind) : Stages (monitor scope kind c) :=
  (Stages.draw _).bind fun _ => (monitorPlan_stages h kind).bind fun _ => Stages.emit nofun

omit h in
theorem plain_stages (c : OperandCall) (e : Element) : Stages (plain c e) := by
  unfold plain
  split
  · exact .pure e
  · exact .fail _

theorem filterElement_stages : Stages (filterElement scope c) := by
  fun_cases filterElement scope c with
  | case1 hargs => exact .pure _
  | case2 test hargs name hname => exact .pure _
  | case3 test hargs hname =>
    exact (condition_stages h (a := test) (by simp [hargs])).bind fun code => .pure _
  | case4 => exact .fail _

omit h in
theorem sampleElement_stages (wrap : Chain.Extent → Chain.Sampler) :
    Stages (sampleElement scope c wrap) := by
  unfold sampleElement
  split
  · exact (Routine.Keeps.ofExcept _).bind fun n => .pure _
  · exact .fail _

omit h in
theorem takeElement_stages : Stages (takeElement scope c) := by
  unfold takeElement
  split
  · exact (Routine.Keeps.ofExcept _).bind fun n => .pure _
  · exact (Routine.Keeps.ofExcept _).bind fun n => (Routine.Keeps.ofExcept _).bind fun m => .pure _
  · exact .fail _

theorem conditionElement_stages (wrap : Code → Element) : Stages (conditionElement c wrap) := by
  fun_cases conditionElement c wrap with
  | case1 test hargs =>
    exact (condition_stages h (a := test) (by simp [hargs])).bind fun code => .pure _
  | case2 => exact .fail _

omit h in
theorem extensionElement_stages : Stages (extensionElement scope c) := by
  unfold extensionElement
  dsimp only
  split
  · exact plain_stages c _
  · exact plain_stages c _
  · exact plain_stages c _
  · exact .fail _

theorem element_stages : Stages (element scope c) := by
  unfold element
  cases c.strict with
  | true => exact .fail _
  | false =>
    simp only [Bool.false_eq_true, if_false]
    split
    · exact filterElement_stages h
    · exact plain_stages c _
    · exact sampleElement_stages _
    · exact sampleElement_stages _
    · exact takeElement_stages
    · exact plain_stages c _
    · exact plain_stages c _
    · exact plain_stages c _
    · exact plain_stages c _
    · exact plain_stages c _
    · exact plain_stages c _
    · exact conditionElement_stages h _
    · exact conditionElement_stages h _
    · exact plain_stages c _
    · exact extensionElement_stages

end

theorem pipeline_stages {calls : List OperandCall} (h : ∀ c ∈ calls, ∀ a ∈ c.args, Stages a.lower)
    (d : Draft) : Stages (pipeline scope d calls) := by
  induction calls generalizing d with
  | nil => exact .pure d
  | cons c calls ih =>
    obtain ⟨hc, hcalls⟩ := List.forall_mem_cons.mp h
    have hpushed : ∀ e : Element, Stages (do
        let d ← ofExcept (d.push c.name e)
        pipeline scope d calls) :=
      fun e => (Routine.Keeps.ofExcept _).bind fun d' => ih hcalls d'
    unfold pipeline
    apply (element_stages hc).bind
    intro e
    dsimp only
    split
    · have hwarn : Stages (warn c.name.text) := fun _ ho => ⟨ho, trivial⟩
      exact hwarn.bind fun _ => hpushed e
    · exact hpushed e

theorem chain_stages {calls : List OperandCall} (h : ∀ c ∈ calls, ∀ a ∈ c.args, Stages a.lower) :
    Stages (chain scope calls) := by
  have hplan : Stages (chainPlan scope calls) := by
    unfold chainPlan
    apply (pipeline_stages h _).bind
    intro draft
    split
    · exact .pure _
    · exact .fail _
  apply (Stages.draw _).bind
  intro name
  have hwithin : Stages (withinChain name (chainPlan scope calls)) :=
    fun o ho => hplan { o with pendingChain := some name } ho
  exact hwithin.bind fun plan => Stages.emit nofun

theorem call_stages (h : ∀ a ∈ c.args, Stages a.lower) : Stages (call scope c) := by
  unfold call
  cases c.strict && c.name.text != "count" with
  | true => exact .fail _
  | false =>
    simp only [Bool.false_eq_true, if_false]
    split
    · exact monitor_stages h _
    · split
      · split
        · exact .fail _
        · exact .pure _
      · split
        · exact chain_stages (List.forall_mem_singleton.mpr h)
        · exact .fail _

/-! ### Expressions -/

theorem operands_stage {es : List Expr} (h : ∀ e ∈ es, Stages (lower scope e)) :
    ∀ a ∈ operands scope es, Stages a.lower := by
  rw [operands_eq_map]
  intro a ha
  obtain ⟨e, he, rfl⟩ := List.mem_map.mp ha
  exact h e he

/-- There are as many codes as stages. -/
theorem lowerStages_length {stages : List (Stage Expr)} (h : ∀ s ∈ stages, Stages (lower scope s.body)) :
    (lowerStages scope stages).Meets (fun o => ∀ f ∈ o.fragments, f.Staged) (fun _ => True)
      (fun codes => codes.length = stages.length) := by
  induction stages with
  | nil =>
    unfold lowerStages
    exact .pure rfl
  | cons s stages ih =>
    obtain ⟨hs, hstages⟩ := List.forall_mem_cons.mp h
    unfold lowerStages
    split
    · exact .fail trivial
    · apply Meets.bind hs
      intro code _
      apply (ih hstages).bind
      intro codes hcodes
      exact .pure (congrArg (· + 1) hcodes)

theorem lower_stages {e : Expr} (h : e.Pinned P) (scope : Scope) : Stages (lower scope e) := by
  induction h generalizing scope with
  | scalar =>
    unfold lower
    exact .pure _
  | ident _ =>
    unfold lower
    exact .ofExcept _
  | binary _ _ ihleft ihright =>
    unfold lower
    exact (ihleft scope).bind fun l => (ihright scope).bind fun r => .pure _
  | unary _ ih =>
    unfold lower
    exact (ih scope).bind fun code => .pure _
  | compare _ =>
    unfold lower
    exact .ofExcept _
  | range _ _ _ ihlower ihupper =>
    unfold lower
    apply (Routine.Keeps.ofExcept _).bind
    exact fun _ => (ihlower scope).bind fun low => (ihupper scope).bind fun high => .pure _
  | @arrow stages hne _ _ ih =>
    unfold lower
    apply (Stages.draw _).bind
    intro name
    apply Meets.state.bind
    intro o _
    apply (lowerStages_length fun s hs => ih s hs scope).bind
    intro codes hcodes
    apply Meets.state.bind
    intro u _
    apply Stages.emit
    rintro plan ⟨⟩
    apply List.ne_nil_of_length_pos
    rw [hcodes]
    exact List.length_pos_of_ne_nil hne
  | @call c _ _ ih =>
    obtain ⟨name, isStrict, args⟩ := c
    unfold lower
    exact call_stages (operands_stage fun e he => ih e he scope)
  | @chain calls _ _ _ ih =>
    unfold lower
    rw [operandCalls_eq_map]
    apply chain_stages
    intro c hc
    obtain ⟨call, hcall, rfl⟩ := List.mem_map.mp hc
    rw [← operands_eq_map]
    exact operands_stage fun e he => ih call hcall e he scope
  | lambda _ _ ih =>
    unfold lower
    exact (Routine.Keeps.ofExcept _).bind fun name => ih _

/-! ### Programs -/

/-- What is selected stands among the statements. -/
abbrev Selects (P : Position → Prop) (m : Selecting (Option Expr)) : Prop :=
  m.Meets (fun _ => True) (fun _ => True) (fun choice => ∀ e ∈ choice, e.Pinned P)

theorem selectStatements_of {registry : Registry} {ss : List Statement}
    (h : ∀ s ∈ ss, ∀ isEnd, Selects P (selectStatement registry isEnd s)) (isProgram : Bool) :
    Selects P (selectStatements registry isProgram ss) := by
  induction ss with
  | nil =>
    unfold selectStatements
    exact .pure nofun
  | cons s ss ih =>
    obtain ⟨hs, hss⟩ := List.forall_mem_cons.mp h
    unfold selectStatements
    apply (hs _).bind
    intro choice hchoice
    split
    · exact .pure hchoice
    · exact ih hss

theorem selectStatement_of {s : Statement} (h : s.Pinned P) (registry : Registry) (isEnd : Bool) :
    Selects P (selectStatement registry isEnd s) := by
  have hnothing : Selects P (pure none) := .pure nofun
  induction h generalizing isEnd with
  | declare _ =>
    unfold selectStatement
    exact (Meets.anything _).bind fun v _ => (Meets.anything _).bind fun _ _ => hnothing
  | assign _ _ =>
    unfold selectStatement
    apply (Meets.anything _).bind
    intro constants _
    dsimp only
    split
    · exact .fail trivial
    · exact (Meets.anything _).bind fun v _ => (Meets.anything _).bind fun _ _ => hnothing
  | @branch condition taken otherwise _ _ _ ihtaken ihotherwise =>
    unfold selectStatement
    apply (Meets.anything _).bind
    intro v _
    split
    · exact selectStatements_of ihtaken false
    · cases otherwise with
      | none =>
        unfold selectOtherwise
        exact hnothing
      | some s =>
        unfold selectOtherwise
        exact ihotherwise s rfl false
  | yield hrule =>
    unfold selectStatement
    exact .pure (by rintro e ⟨⟩; exact hrule)
  | block _ ih =>
    unfold selectStatement
    exact selectStatements_of ih false
  | bare hrule =>
    unfold selectStatement
    split
    · exact .fail trivial
    · exact .pure (by rintro e ⟨⟩; exact hrule)

theorem select_of {p : Program} (h : ∀ s ∈ p, s.Pinned P) (registry : Registry) :
    (select registry p).Meets (fun _ => True) (fun _ => True) (Expr.Pinned P) := by
  unfold select
  apply (selectStatements_of (fun s hs isEnd => selectStatement_of (h s hs) registry isEnd) true).bind
  intro choice hchoice
  split
  · exact .pure (hchoice _ rfl)
  · exact .fail trivial

end Lowering

open Lowering

variable {registry : Registry} {constants : List (String × Value)} {source : String}

theorem selected_pinned {k : Keyed Value} {e : Expr} (h : selected registry constants source = .ok (k, e)) :
    e.Pinned (·.StandsIn source.toList) := by
  rw [selected] at h
  cases hparse : parseSource source with
  | error err =>
    rw [hparse] at h
    cases h
  | ok p =>
    have hp := (parseSource_points source).answer_of hparse
    have hchosen := (select_of hp registry (bindAll constants) trivial).2
    rw [hparse] at h
    cases hrun : (select registry p).run (bindAll constants) with
    | mk r k' =>
      rw [hrun] at hchosen
      simp only [bind, Except.bind, hrun] at h
      cases r with
      | error err => cases h
      | ok chosen =>
        cases h
        exact hchosen

/-- Every arrow of a compiled rule has a stage. -/
theorem compiled_staged {rule : Rule} (h : compile registry constants source = .ok rule) :
    ∀ f ∈ rule.fragments, f.Staged := by
  obtain ⟨k, e, hs, hr⟩ := selected_of_compiled h
  obtain ⟨entry, output, hrun, rfl⟩ := Rule.ofExpr_ok hr
  have hstaged := (lower_stages (selected_pinned hs) ⟨k, registry, none⟩ .empty (List.forall_mem_nil _)).1
  rw [hrun] at hstaged
  exact hstaged

end EventRules
