import EventRules.Proofs.Lowering.Accounting
import EventRules.Proofs.Lowering.Expressions

/-!
# Tables of fragments

By induction over the expression, lowering accounts for its references: each monitor, chain and arrow
takes over the calls of its arguments, and an amount that is not positive is an error. So the table of
fragments stays well placed, whatever is lowered one after the other and whether it succeeds or not, and
one expression lowered alone calls each of its fragments once.
-/

namespace EventRules
set_option autoImplicit false

namespace Expr

theorem no_arrow_of_mem {es : List Expr} (h : anyContainsArrow es = false) {e : Expr} (he : e ∈ es) :
    e.containsArrow = false := by
  induction es with
  | nil => simp at he
  | cons e' es ih =>
    rw [anyContainsArrow, Bool.or_eq_false_iff] at h
    rcases List.mem_cons.mp he with rfl | he
    · exact h.1
    · exact ih h.2 he

theorem no_arrow_of_mem_call {calls : List (Call Expr)} (h : anyCallContainsArrow calls = false)
    {c : Call Expr} (hc : c ∈ calls) {e : Expr} (he : e ∈ c.args) : e.containsArrow = false := by
  induction calls with
  | nil => simp at hc
  | cons c' calls ih =>
    rw [anyCallContainsArrow, Bool.or_eq_false_iff] at h
    rcases List.mem_cons.mp hc with rfl | hc
    · exact no_arrow_of_mem h.1 he
    · exact ih h.2 hc

end Expr

namespace Lowering

open Routine

variable {plain : Prop} {o u : Output} {scope : Scope} {c : OperandCall}

/-! ### Amounts -/

theorem toNat_pos {n : Int64} (h : 0 < n) : 0 < n.toInt.toNat := by
  have hint : (0 : Int64).toInt < n.toInt := Int64.lt_iff_toInt_lt.mp h
  have hzero : (0 : Int64).toInt = 0 := rfl
  omega

theorem countArgument_pos {e : Expr} {n : Nat} (h : countArgument scope c e = .ok n) : 0 < n := by
  rw [countArgument] at h
  cases ha : amount scope c e with
  | error err =>
    rw [ha] at h
    cases h
  | ok a =>
    rw [ha] at h
    cases a with
    | integer k =>
      by_cases hk : 0 < k
      · simp only [bind, Except.bind, hk, if_true] at h
        cases h
        exact toNat_pos hk
      · simp only [bind, Except.bind, hk, if_false] at h
        cases h
    | duration ms => cases h
    | other => cases h

theorem durationArgument_pos {e : Expr} {ms : Int64} (h : durationArgument scope c e = .ok ms) :
    0 < ms := by
  have hpos : ∀ {k : Int64}, (if 0 < k then (return k : Except LoweringError Int64)
      else throw (fault c (.durationNotPositive k))) = .ok ms → 0 < ms := by
    intro k hk
    by_cases hlt : 0 < k
    · rw [if_pos hlt] at hk
      cases hk
      exact hlt
    · rw [if_neg hlt] at hk
      cases hk
  rw [durationArgument] at h
  cases ha : amount scope c e with
  | error err =>
    rw [ha] at h
    cases h
  | ok a =>
    rw [ha] at h
    cases a with
    | integer k => exact hpos h
    | duration k => exact hpos h
    | other => cases h

theorem extentArgument_positive {e : Expr} {extent : Chain.Extent}
    (h : extentArgument scope c e = .ok extent) : extent.Positive := by
  rw [extentArgument] at h
  cases ha : amount scope c e with
  | error err =>
    rw [ha] at h
    cases h
  | ok a =>
    rw [ha] at h
    cases a with
    | integer k =>
      by_cases hk : 0 < k
      · simp only [bind, Except.bind, hk, if_true] at h
        cases h
        exact toNat_pos hk
      · simp only [bind, Except.bind, hk, if_false] at h
        cases h
    | duration k =>
      by_cases hk : 0 < k
      · simp only [bind, Except.bind, hk, if_true] at h
        cases h
        exact hk
      · simp only [bind, Except.bind, hk, if_false] at h
        cases h
    | other => cases h

/-! ### Monitors -/

/-- The lowering of a part accounts for its references. -/
def CodeAccounted (plain : Prop) (m : Lower Code) : Prop :=
  AlwaysAccounted plain [] Code.references (fun _ => True) m

theorem CodeAccounted.imp {plain' : Prop} {m : Lower Code} (h : CodeAccounted plain m)
    (hplain : plain' → plain) : CodeAccounted plain' m := by
  intro o
  exact (h o).imp hplain fun _ h => h

def ArgumentsAccounted (plain : Prop) (c : OperandCall) : Prop :=
  ∀ a ∈ c.args, CodeAccounted plain a.lower

theorem condition_accounted {operand : Operand} (h : CodeAccounted plain operand.lower)
    (c : OperandCall) : CodeAccounted plain (condition c operand) := by
  intro o
  rw [condition]
  cases isCondition operand.expr with
  | false => exact AccountedAt.fail _
  | true => exact h o

theorem monitorPlan_accounted (h : ArgumentsAccounted plain c) (kind : MonitorKind) :
    AlwaysAccounted plain [] Monitor.Plan.references Monitor.Plan.Positive
      (monitorPlan scope kind c) := by
  intro o
  fun_cases monitorPlan scope kind c with
  | case1 test times hargs =>
    have htest := h test (by simp [hargs])
    refine AccountedAt.bind (condition_accounted htest c o) ?_
    intro code u _
    refine AccountedAt.ofExcept_bind ?_
    intro n hn
    exact AccountedAt.pure (countArgument_pos hn) (.refl _)
  | case2 test time hargs =>
    have htest := h test (by simp [hargs])
    refine AccountedAt.bind (condition_accounted htest c o) ?_
    intro code u _
    refine AccountedAt.ofExcept_bind ?_
    intro ms hms
    exact AccountedAt.pure (durationArgument_pos hms) (.refl _)
  | case3 time hargs =>
    refine AccountedAt.ofExcept_bind ?_
    intro ms hms
    exact AccountedAt.pure (durationArgument_pos hms) (.refl _)
  | case4 test hargs =>
    have htest := h test (by simp [hargs])
    refine AccountedAt.bind (condition_accounted htest c o) ?_
    intro code u _
    have hunit : (0 : Int64) < defaultSlopeUnit := by decide
    exact AccountedAt.pure hunit (.refl _)
  | case5 test unit hargs =>
    have htest := h test (by simp [hargs])
    refine AccountedAt.bind (condition_accounted htest c o) ?_
    intro code u _
    refine AccountedAt.ofExcept_bind ?_
    intro ms hms
    exact AccountedAt.pure (durationArgument_pos hms) (.refl _)
  | case6 kind args => exact AccountedAt.fail _

theorem monitor_accounted (h : ArgumentsAccounted plain c) (kind : MonitorKind) :
    CodeAccounted plain (monitor scope kind c) := by
  rw [monitor_eq_named]
  have hbody : ∀ _ : String, AlwaysAccounted plain [] FragmentBody.references
      (fun b => ∃ plan, b = .monitor plan ∧ plan.Positive)
      (FragmentBody.monitor <$> monitorPlan scope kind c) := by
    intro _ o
    refine AccountedAt.map (monitorPlan_accounted h kind o) ?_
    intro plan hplan
    exact ⟨⟨plan, rfl, hplan⟩, .refl _⟩
  refine named_accounted hbody ?_ ?_ ?_
  · rintro _ ⟨plan, rfl, hplan⟩
    exact hplan
  · rintro _ _ ⟨plan, rfl, -⟩
    rfl
  · intro _ o u plan _ _ hrun
    obtain ⟨_, _, -, hpure⟩ := bind_ok hrun
    cases hpure

/-! ### Chains -/

def Element.references : Element → List Reference
  | .filter test => test.toList.flatMap Test.references
  | .aggregate aggregation => aggregation.references
  | .verdict test => test.references
  | .collect | .sample _ | .take _ _ | .clear => []

def Element.Positive (e : Element) : Prop := ∀ sampler, e = .sample sampler → sampler.extent.Positive

def ElementAccounted (plain : Prop) (m : Lower Element) (o : Output) : Prop :=
  AccountedAt plain [] Element.references Element.Positive m o

theorem plain_accounted {e : Element} (hrefs : e.references = []) (he : e.Positive) :
    ElementAccounted plain (Lowering.plain c e) o := by
  rw [Lowering.plain]
  cases c.args.isEmpty with
  | true =>
    refine AccountedAt.pure he ?_
    rw [hrefs]
  | false => exact AccountedAt.fail _

theorem condition_then_accounted {operand : Operand} (h : CodeAccounted plain operand.lower)
    {wrap : Code → Element} (hrefs : ∀ code, (wrap code).references = code.references)
    (hpositive : ∀ code, (wrap code).Positive) :
    ElementAccounted plain (wrap <$> condition c operand) o := by
  refine AccountedAt.map (condition_accounted h c o) ?_
  intro code _
  rw [hrefs]
  exact ⟨hpositive code, .refl _⟩

theorem filterElement_accounted (h : ArgumentsAccounted plain c) :
    ElementAccounted plain (filterElement scope c) o := by
  fun_cases filterElement scope c with
  | case1 hargs => exact AccountedAt.pure (by rintro _ ⟨⟩) (.refl _)
  | case2 test hargs name hname => exact AccountedAt.pure (by rintro _ ⟨⟩) (.refl _)
  | case3 test hargs hname =>
    have htest := h test (by simp [hargs])
    refine condition_then_accounted htest ?_ (fun _ => by rintro _ ⟨⟩)
    intro code
    simp [Element.references, Test.references]
  | case4 => exact AccountedAt.fail _

theorem sampleElement_accounted {wrap : Chain.Extent → Chain.Sampler}
    (hwrap : ∀ extent, (wrap extent).extent = extent) :
    ElementAccounted plain (sampleElement scope c wrap) o := by
  fun_cases sampleElement scope c wrap with
  | case1 extent hargs =>
    refine AccountedAt.ofExcept_bind ?_
    intro n hn
    refine AccountedAt.pure ?_ (.refl _)
    intro sampler hs
    cases hs
    rw [hwrap]
    exact extentArgument_positive hn
  | case2 => exact AccountedAt.fail _

theorem takeElement_accounted : ElementAccounted plain (takeElement scope c) o := by
  fun_cases takeElement scope c with
  | case1 start hargs =>
    exact AccountedAt.ofExcept_bind fun n _ => AccountedAt.pure (by rintro _ ⟨⟩) (.refl _)
  | case2 start stop hargs =>
    refine AccountedAt.ofExcept_bind fun n _ => AccountedAt.ofExcept_bind fun n' _ => ?_
    exact AccountedAt.pure (by rintro _ ⟨⟩) (.refl _)
  | case3 => exact AccountedAt.fail _

theorem conditionElement_accounted (h : ArgumentsAccounted plain c) {wrap : Code → Element}
    (hrefs : ∀ code, (wrap code).references = code.references)
    (hpositive : ∀ code, (wrap code).Positive) :
    ElementAccounted plain (conditionElement c wrap) o := by
  fun_cases conditionElement c wrap with
  | case1 test hargs => exact condition_then_accounted (h test (by simp [hargs])) hrefs hpositive
  | case2 => exact AccountedAt.fail _

theorem extensionElement_accounted : ElementAccounted plain (extensionElement scope c) o := by
  rw [extensionElement]
  cases scope.registry.kind? c.name.text with
  | none => exact AccountedAt.fail _
  | some kind => cases kind <;> exact plain_accounted rfl (by rintro _ ⟨⟩)

theorem elementAccounted (h : ArgumentsAccounted plain c) :
    ElementAccounted plain (element scope c) o := by
  rw [element]
  cases c.strict with
  | true => exact AccountedAt.fail _
  | false =>
    simp only [Bool.false_eq_true, if_false]
    split
    · exact filterElement_accounted h
    · exact plain_accounted rfl (by rintro _ ⟨⟩)
    · exact sampleElement_accounted fun _ => rfl
    · exact sampleElement_accounted fun _ => rfl
    · exact takeElement_accounted
    · exact plain_accounted rfl (by rintro _ ⟨⟩)
    · exact plain_accounted rfl (by rintro _ ⟨⟩)
    · exact plain_accounted rfl (by rintro _ ⟨⟩)
    · exact plain_accounted rfl (by rintro _ ⟨⟩)
    · exact plain_accounted rfl (by rintro _ ⟨⟩)
    · exact plain_accounted rfl (by rintro _ ⟨⟩)
    · exact conditionElement_accounted h (fun _ => rfl) (fun _ => by rintro _ ⟨⟩)
    · exact conditionElement_accounted h (fun _ => rfl) (fun _ => by rintro _ ⟨⟩)
    · exact plain_accounted rfl (by rintro _ ⟨⟩)
    · exact extensionElement_accounted

/-! ### Drafts and chains -/

def Draft.references (d : Draft) : List Reference :=
  d.filters.flatMap Test.references ++
    d.aggregation.toList.flatMap Chain.Aggregation.references ++ d.verdict.toList.flatMap Test.references

/-- What the phase still allows has not been recorded yet. -/
structure Draft.Ordered (d : Draft) : Prop where
  sampler : ∀ sampler ∈ d.sampler, sampler.extent.Positive
  aggregation : d.aggregation ≠ none → d.phase ∈ [.aggregate, .verdict, .clear]
  verdict : d.verdict ≠ none → d.phase ∈ [.verdict, .clear]

theorem Draft.Ordered.empty : Draft.empty.Ordered := by
  refine ⟨nofun, ?_, ?_⟩
  · intro h
    exact absurd rfl h
  · intro h
    exact absurd rfl h

/-- An element stands behind the last phase, or behind a filter that is put before it. -/
theorem push_eq {d d' : Draft} {name : Token} {e : Element} (h : d.push name e = .ok d') :
    (∃ phase, (phase = d.phase ∨ d.phase = .start) ∧ phase.accepts e.phase = true) ∧
      d' = { d.record e with phase := e.phase, last := some name } := by
  rw [Draft.push] at h
  cases hs : d.samplerBefore e with
  | some existing =>
    rw [hs] at h
    cases h
  | none =>
    rw [hs] at h
    simp only at h
    cases haccepts : (if d.lacksFilter e then Phase.filter else d.phase).accepts e.phase with
    | false =>
      rw [haccepts] at h
      cases h
    | true =>
      rw [haccepts, if_pos rfl] at h
      refine ⟨⟨_, ?_, haccepts⟩, (Except.ok.inj h).symm⟩
      cases hl : d.lacksFilter e with
      | true =>
        rw [Draft.lacksFilter, Bool.and_eq_true] at hl
        exact Or.inr (by simpa using hl.1)
      | false => exact Or.inl rfl

theorem Draft.Ordered.accepted {d : Draft} (h : d.Ordered) {e : Element}
    (he : ∃ phase, (phase = d.phase ∨ d.phase = .start) ∧ phase.accepts e.phase = true) :
    (e.phase ≠ .verdict → e.phase ≠ .clear → d.aggregation = none) ∧
      (e.phase ≠ .clear → d.verdict = none) := by
  obtain ⟨phase, hphase, haccepts⟩ := he
  constructor
  · intro hv hc
    by_contra hne
    have hmem := h.aggregation hne
    rcases hphase with rfl | hstart
    · revert haccepts hmem hv hc
      cases d.phase <;> cases e.phase <;> decide
    · rw [hstart] at hmem
      simp at hmem
  · intro hc
    by_contra hne
    have hmem := h.verdict hne
    rcases hphase with rfl | hstart
    · revert haccepts hmem hc
      cases d.phase <;> cases e.phase <;> decide
    · rw [hstart] at hmem
      simp at hmem

theorem Draft.Ordered.push {d d' : Draft} {name : Token} {e : Element} (h : d.Ordered)
    (he : e.Positive) (hpush : d.push name e = .ok d') :
    d'.Ordered ∧ (d.references ++ e.references).Perm d'.references := by
  obtain ⟨haccepted, rfl⟩ := push_eq hpush
  obtain ⟨hnone, hnone'⟩ := h.accepted haccepted
  cases e with
  | filter test =>
    have ha := hnone nofun nofun
    have hv := hnone' nofun
    refine ⟨⟨h.sampler, fun hne => absurd ha hne, fun hne => absurd hv hne⟩, ?_⟩
    simp [Draft.references, Draft.record, Element.references, ha, hv]
  | collect =>
    have ha := hnone nofun nofun
    have hv := hnone' nofun
    refine ⟨⟨h.sampler, fun hne => absurd ha hne, fun hne => absurd hv hne⟩, ?_⟩
    simp [Draft.references, Draft.record, Element.references]
  | sample sampler =>
    have ha := hnone nofun nofun
    have hv := hnone' nofun
    refine ⟨⟨?_, fun hne => absurd ha hne, fun hne => absurd hv hne⟩, ?_⟩
    · intro sampler' hs
      cases hs
      exact he sampler rfl
    · simp [Draft.references, Draft.record, Element.references]
  | take start stop =>
    have ha := hnone nofun nofun
    have hv := hnone' nofun
    refine ⟨⟨h.sampler, fun hne => absurd ha hne, fun hne => absurd hv hne⟩, ?_⟩
    simp [Draft.references, Draft.record, Element.references]
  | aggregate aggregation =>
    have ha := hnone nofun nofun
    have hv := hnone' nofun
    have hphase : Phase.aggregate ∈ [.aggregate, .verdict, .clear] := by decide
    refine ⟨⟨h.sampler, fun _ => hphase, fun hne => absurd hv hne⟩, ?_⟩
    simp [Draft.references, Draft.record, Element.references, ha, hv]
  | verdict test =>
    have hv := hnone' nofun
    have hphase : Phase.verdict ∈ [.aggregate, .verdict, .clear] := by decide
    have hphase' : Phase.verdict ∈ [.verdict, .clear] := by decide
    refine ⟨⟨h.sampler, fun _ => hphase, fun _ => hphase'⟩, ?_⟩
    simp [Draft.references, Draft.record, Element.references, hv]
  | clear =>
    have hphase : Phase.clear ∈ [.aggregate, .verdict, .clear] := by decide
    have hphase' : Phase.clear ∈ [.verdict, .clear] := by decide
    refine ⟨⟨h.sampler, fun _ => hphase, fun _ => hphase'⟩, ?_⟩
    simp [Draft.references, Draft.record, Element.references]

theorem pipeline_accounted {calls : List OperandCall} (h : ∀ c ∈ calls, ArgumentsAccounted plain c)
    {d : Draft} (hd : d.Ordered) :
    AccountedAt plain d.references Draft.references Draft.Ordered (pipeline scope d calls) o := by
  induction calls generalizing d o with
  | nil => exact AccountedAt.pure hd (.refl _)
  | cons c cs ih =>
    have hcs : ∀ c ∈ cs, ArgumentsAccounted plain c := fun c hc => h c (List.mem_cons_of_mem _ hc)
    have helement : ElementAccounted plain (element scope c) o := elementAccounted (h c List.mem_cons_self)
    have hheld := AccountedAt.frame d.references helement
    rw [List.append_nil] at hheld
    refine AccountedAt.bind hheld ?_
    intro e u he
    have hrest : ∀ v, AccountedAt plain (d.references ++ e.references) Draft.references Draft.Ordered
        (ofExcept (d.push c.name e) >>= fun d => pipeline scope d cs) v := by
      intro v
      refine AccountedAt.ofExcept_bind ?_
      intro d' hpush
      obtain ⟨hd', hperm⟩ := hd.push he hpush
      exact AccountedAt.of_perm hperm (ih hcs hd')
    cases d.lacksFilter e with
    | true => exact AccountedAt.bind (AccountedAt.warn _) fun _ v _ => hrest v
    | false => exact hrest u

theorem plan_references {d : Draft} {plan : Chain.Plan} (h : d.plan? = some plan) :
    plan.references = d.references ∧ plan.sampler = d.sampler := by
  rw [Draft.plan?] at h
  cases ha : d.aggregation with
  | none => simp [ha] at h
  | some aggregation =>
    cases hv : d.verdict with
    | none => simp [ha, hv] at h
    | some verdict =>
      simp only [ha, hv, Option.some.injEq] at h
      subst h
      simp [Chain.Plan.references, Draft.references, ha, hv]

theorem chainPlan_accounted {calls : List OperandCall} (h : ∀ c ∈ calls, ArgumentsAccounted plain c) :
    AlwaysAccounted plain [] Chain.Plan.references
      (fun plan => ∀ sampler ∈ plan.sampler, sampler.extent.Positive) (chainPlan scope calls) := by
  intro o
  refine AccountedAt.bind (pipeline_accounted h .empty) ?_
  intro d u hd
  cases hp : d.plan? with
  | none => exact AccountedAt.fail _
  | some plan =>
    obtain ⟨hrefs, hsampler⟩ := plan_references hp
    refine AccountedAt.pure ?_ ?_
    · rw [hsampler]
      exact hd.sampler
    · rw [hrefs]

theorem chain_accounted {calls : List OperandCall} (h : ∀ c ∈ calls, ArgumentsAccounted plain c) :
    CodeAccounted plain (chain scope calls) := by
  rw [chain_eq_named]
  have hbody : ∀ name : String, AlwaysAccounted plain [] FragmentBody.references
      (fun b => ∃ plan, b = .chain plan ∧ ∀ sampler ∈ plan.sampler, sampler.extent.Positive)
      (FragmentBody.chain <$> withinChain name (chainPlan scope calls)) := by
    intro name o
    refine AccountedAt.map (AccountedAt.withinChain (chainPlan_accounted h) name) ?_
    intro plan hplan
    exact ⟨⟨plan, rfl, hplan⟩, .refl _⟩
  refine named_accounted hbody ?_ ?_ ?_
  · rintro _ ⟨plan, rfl, hplan⟩
    exact hplan
  · rintro _ _ ⟨plan, rfl, -⟩
    rfl
  · intro _ o u plan _ _ hrun
    obtain ⟨_, _, -, hpure⟩ := bind_ok hrun
    cases hpure

/-! ### Expressions -/

theorem call_accounted (h : ArgumentsAccounted plain c) : CodeAccounted plain (call scope c) := by
  intro o
  rw [call]
  cases c.strict && c.name.text != "count" with
  | true => exact AccountedAt.fail _
  | false =>
    simp only [Bool.false_eq_true, if_false]
    cases MonitorKind.ofName? c.name.text with
    | some kind => exact monitor_accounted h kind o
    | none =>
      dsimp only
      split
      · cases c.args.isEmpty with
        | true => exact AccountedAt.pure trivial (.refl _)
        | false => exact AccountedAt.fail _
      · split
        · refine chain_accounted ?_ o
          intro c' hc
          obtain rfl := List.mem_singleton.mp hc
          exact h
        · exact AccountedAt.fail _

/-- No arrow stands in a stage, so the stages add none. -/
theorem stages_accounted {stages : List (Stage Expr)}
    (h : ∀ s ∈ stages, CodeAccounted (s.body.containsArrow = false) (lower scope s.body)) :
    AlwaysAccounted True [] (fun codes => codes.flatMap Code.references) (fun _ => True)
      (lowerStages scope stages) := by
  induction stages with
  | nil =>
    intro o
    exact AccountedAt.pure trivial (.refl _)
  | cons s stages ih =>
    intro o
    obtain ⟨opening, body⟩ := s
    rw [lowerStages]
    cases hbody : body.containsArrow with
    | true => exact AccountedAt.fail _
    | false =>
      have hfirst := (h _ List.mem_cons_self).imp fun _ : True => hbody
      refine AccountedAt.bind (hfirst o) ?_
      intro code u _
      have hrest := ih (fun s hs => h s (List.mem_cons_of_mem _ hs)) u
      have hrest := hrest.frame code.references
      rw [List.append_nil] at hrest
      refine AccountedAt.bind hrest ?_
      intro codes v _
      exact AccountedAt.pure trivial (.refl _)

theorem arrow_lowered {stages : List (Stage Expr)} {code : Code}
    (h : (lower scope (.arrow stages)).run o = (.ok code, u)) :
    ∃ name codes t, (lowerStages scope stages).run { o with issued := o.issued + 1 } = (.ok codes, t) ∧
      code = .call name t.fragments.length ∧
      u.fragments = t.fragments ++ [⟨name, .arrow ⟨codes, t.namesSince o.fragments.length⟩⟩] := by
  rw [arrow_eq_named, named_run] at h
  split at h
  · next body t hbody =>
    cases h
    obtain ⟨codes, v, hcodes, hpure⟩ := bind_ok (m := lowerStages scope stages) hbody
    cases hpure
    exact ⟨_, codes, t, hcodes, rfl, rfl⟩
  · cases h

theorem arrow_accounted {stages : List (Stage Expr)}
    (h : ∀ s ∈ stages, CodeAccounted (s.body.containsArrow = false) (lower scope s.body)) :
    CodeAccounted ((Expr.arrow stages).containsArrow = false) (lower scope (.arrow stages)) := by
  rw [arrow_eq_named]
  have hstages := stages_accounted h
  have hcodes := fun o => (hstages o).imp
    (fun _ : (Expr.arrow stages).containsArrow = false => trivial) fun _ h => h
  refine named_accounted (Q := fun b => ∃ plan, b = .arrow plan) ?_ ?_ ?_ ?_
  · intro _ o
    refine AccountedAt.bind (hcodes o) (f := fun codes => do
      let after ← state
      return FragmentBody.arrow ⟨codes, after.namesSince o.fragments.length⟩) ?_
    intro codes u _
    exact AccountedAt.pure (a := FragmentBody.arrow ⟨codes, u.namesSince o.fragments.length⟩) ⟨_, rfl⟩
      (.refl _)
  · rintro _ ⟨plan, rfl⟩
    trivial
  · intro hplain
    cases hplain
  · intro _ o u plan hplaced hheld hrun
    obtain ⟨codes, v, hcodes, hpure⟩ := bind_ok (m := lowerStages scope stages) hrun
    cases hpure
    obtain ⟨-, -, added, hadded, hfree, hok⟩ := hstages o hplaced hheld
    rw [hcodes] at hadded hok
    refine ⟨o.fragments, added, hadded, ?_, hfree trivial, (hok codes rfl).2⟩
    have hadded : u.fragments = o.fragments ++ added := hadded
    rw [Output.namesSince, hadded, List.drop_left]

theorem bound_references (code : Code) : (bound code).references = code.references := by
  rw [bound]
  cases h : code.fold? with
  | none => rfl
  | some v => exact (Code.references_of_fold h).symm

/-- Two codes that are lowered one after the other. -/
theorem pair_accounted {m m' : Lower Code} {f : Code → Code → Code} (h : CodeAccounted plain m)
    (h' : CodeAccounted plain m') (hf : ∀ a b, (f a b).references = a.references ++ b.references) :
    CodeAccounted plain (m >>= fun a => m' >>= fun b => pure (f a b)) := by
  intro o
  refine AccountedAt.bind (h o) ?_
  intro a u _
  have hsecond := (h' u).frame a.references
  rw [List.append_nil] at hsecond
  refine AccountedAt.bind hsecond ?_
  intro b v _
  refine AccountedAt.pure trivial ?_
  rw [hf]

theorem lower_accounted (e : Expr) : ∀ scope : Scope,
    CodeAccounted (e.containsArrow = false) (lower scope e) := by
  induction e using Expr.induct with
  | scalar value token =>
    intro scope o
    exact AccountedAt.pure trivial (.refl _)
  | ident name =>
    intro scope o
    rw [lower, Scope.code]
    split
    · exact AccountedAt.pure trivial (.refl _)
    · split
      · exact AccountedAt.pure trivial (.refl _)
      · exact AccountedAt.fail _
  | binary op left right ihl ihr =>
    intro scope o
    rw [Expr.containsArrow, Bool.or_eq_false_iff]
    have hleft := (ihl scope).imp (And.left (b := right.containsArrow = false))
    have hright := (ihr scope).imp (And.right (a := left.containsArrow = false))
    refine pair_accounted (f := fun a b => .binary op a b) hleft hright ?_ o
    intro a b
    rfl
  | unary op operand ih =>
    intro scope o
    rw [Expr.containsArrow]
    refine AccountedAt.map (ih scope o) ?_
    intro code _
    cases op <;> exact ⟨trivial, .refl _⟩
  | compare op operand ih =>
    intro scope o
    rw [lower]
    refine AccountedAt.unchanged ?_
    intro c hc
    obtain ⟨v, rfl⟩ := comparison_eq hc
    exact ⟨trivial, .refl _⟩
  | range opening below above closing ihl ihu =>
    intro scope o
    rw [Expr.containsArrow, Bool.or_eq_false_iff, lower]
    refine AccountedAt.ofExcept_bind ?_
    intro _ _
    have hbelow := (ihl scope).imp (And.left (b := above.containsArrow = false))
    have habove := (ihu scope).imp (And.right (a := below.containsArrow = false))
    refine pair_accounted (f := fun a b => .binary .and (.compare opening.lowerOp (bound a))
      (.compare closing.upperOp (bound b))) hbelow habove ?_ o
    intro a b
    simp only [Code.references, bound_references]
  | arrow stages ih =>
    intro scope
    exact arrow_accounted fun s hs => ih s hs scope
  | call c ih =>
    intro scope
    obtain ⟨name, isStrict, args⟩ := c
    rw [lower, operands_eq_map]
    refine call_accounted ?_
    intro a ha
    obtain ⟨e, he, rfl⟩ := List.mem_map.mp ha
    apply (ih e he scope).imp
    intro hplain
    rw [Expr.containsArrow] at hplain
    exact Expr.no_arrow_of_mem hplain he
  | chain calls ih =>
    intro scope
    rw [lower, operandCalls_eq_map]
    refine chain_accounted ?_
    intro c' hc' a ha
    obtain ⟨c, hmem, rfl⟩ := List.mem_map.mp hc'
    obtain ⟨e, he, rfl⟩ := List.mem_map.mp ha
    apply (ih c hmem e he scope).imp
    intro hplain
    rw [Expr.containsArrow] at hplain
    exact Expr.no_arrow_of_mem_call hplain hmem he
  | lambda params body ih =>
    intro scope o
    rw [Expr.containsArrow, lower]
    refine AccountedAt.ofExcept_bind ?_
    intro name _
    exact ih { scope with parameter := some name } o

end Lowering

end EventRules
