import EventRules.Matcher
import EventRules.Proofs.Lowering.Twin

/-!
# Rules in other words

Code may be replaced by code that evaluates alike. If that is done anywhere in a rule, in its entry and
in its fragments, then matchers of the two rules answer every event alike, with the same trace, and keep
the same states.
-/

namespace EventRules
set_option autoImplicit false

open Routine

/-- Code that evaluates alike, whatever calls do. -/
def Code.Same (c d : Code) : Prop :=
  ∀ call subject frame, c.evaluate call subject frame = d.evaluate call subject frame

/-! ### What differs in replaced code only -/

inductive Test.Recoded (R : Code → Code → Prop) : Test → Test → Prop where
  | condition {c d : Code} (h : R c d) : Recoded R (.condition c) (.condition d)
  | extension (name : String) : Recoded R (.extension name) (.extension name)

inductive Chain.Aggregation.Recoded (R : Code → Code → Prop) :
    Chain.Aggregation → Chain.Aggregation → Prop where
  | sum : Recoded R .sum .sum
  | avg : Recoded R .avg .avg
  | min : Recoded R .min .min
  | max : Recoded R .max .max
  | stddev : Recoded R .stddev .stddev
  | count : Recoded R .count .count
  | hitRate {c d : Code} (h : R c d) : Recoded R (.hitRate c) (.hitRate d)
  | extension (name : String) : Recoded R (.extension name) (.extension name)

structure Chain.Plan.Recoded (R : Code → Code → Prop) (p q : Chain.Plan) : Prop where
  filters : List.Forall₂ (Test.Recoded R) p.filters q.filters
  sampler : p.sampler = q.sampler
  take : p.take = q.take
  aggregation : Chain.Aggregation.Recoded R p.aggregation q.aggregation
  verdict : Test.Recoded R p.verdict q.verdict
  clears : p.clears = q.clears

structure Arrow.Plan.Recoded (R : Code → Code → Prop) (p q : Arrow.Plan) : Prop where
  stages : List.Forall₂ R p.stages q.stages
  owned : p.owned = q.owned

inductive Monitor.Plan.Recoded (R : Code → Code → Prop) : Monitor.Plan → Monitor.Plan → Prop where
  | count {c d : Code} (times : Nat) (strict : Bool) (h : R c d) :
      Recoded R (.count c times strict) (.count d times strict)
  | keep {c d : Code} (ms : Int64) (h : R c d) : Recoded R (.keep c ms) (.keep d ms)
  | delay (ms : Int64) : Recoded R (.delay ms) (.delay ms)
  | slope {c d : Code} (unit : Int64) (h : R c d) : Recoded R (.slope c unit) (.slope d unit)

inductive FragmentBody.Recoded (R : Code → Code → Prop) : FragmentBody → FragmentBody → Prop where
  | chain {p q : Chain.Plan} (h : Chain.Plan.Recoded R p q) : Recoded R (.chain p) (.chain q)
  | arrow {p q : Arrow.Plan} (h : Arrow.Plan.Recoded R p q) : Recoded R (.arrow p) (.arrow q)
  | monitor {p q : Monitor.Plan} (h : Monitor.Plan.Recoded R p q) :
      Recoded R (.monitor p) (.monitor q)

structure Fragment.Recoded (R : Code → Code → Prop) (f g : Fragment) : Prop where
  name : f.name = g.name
  body : FragmentBody.Recoded R f.body g.body

structure Rule.Recoded (R : Code → Code → Prop) (r q : Rule) : Prop where
  entry : R r.entry q.entry
  fragments : List.Forall₂ (Fragment.Recoded R) r.fragments q.fragments
  registry : r.registry = q.registry

section

variable {R : Code → Code → Prop} (hR : ∀ c, R c c)
include hR

theorem Test.Recoded.same (t : Test) : Test.Recoded R t t := by
  cases t with
  | condition c => exact .condition (hR c)
  | extension name => exact .extension name

theorem Chain.Aggregation.Recoded.same (how : Chain.Aggregation) :
    Chain.Aggregation.Recoded R how how := by
  cases how with
  | hitRate c => exact .hitRate (hR c)
  | _ => constructor

theorem FragmentBody.Recoded.same (b : FragmentBody) : FragmentBody.Recoded R b b := by
  cases b with
  | chain plan =>
    exact .chain ⟨List.forall₂_same.mpr fun t _ => .same hR t, rfl, rfl, .same hR plan.aggregation,
      .same hR plan.verdict, rfl⟩
  | arrow plan => exact .arrow ⟨List.forall₂_same.mpr fun c _ => hR c, rfl⟩
  | monitor plan =>
    cases plan with
    | count c times isStrict => exact .monitor (.count times isStrict (hR c))
    | keep c ms => exact .monitor (.keep ms (hR c))
    | delay ms => exact .monitor (.delay ms)
    | slope c unit => exact .monitor (.slope unit (hR c))

end

theorem Test.Recoded.eq {t t' : Test} (h : Test.Recoded Eq t t') : t = t' := by
  cases h with
  | condition h => rw [h]
  | extension name => rfl

theorem Chain.Aggregation.Recoded.eq {how how' : Chain.Aggregation}
    (h : Chain.Aggregation.Recoded Eq how how') : how = how' := by
  cases h with
  | hitRate h => rw [h]
  | _ => rfl

theorem Chain.Plan.Recoded.eq {p q : Chain.Plan} (h : Chain.Plan.Recoded Eq p q) : p = q := by
  have hfilters : List.Forall₂ Eq p.filters q.filters := h.filters.imp fun _ _ ht => ht.eq
  rw [List.forall₂_eq_eq_eq] at hfilters
  obtain ⟨-, hsampler, htake, hhow, hverdict, hclears⟩ := h
  cases p
  cases q
  rw [Chain.Plan.mk.injEq]
  exact ⟨hfilters, hsampler, htake, hhow.eq, hverdict.eq, hclears⟩

theorem Arrow.Plan.Recoded.eq {p q : Arrow.Plan} (h : Arrow.Plan.Recoded Eq p q) : p = q := by
  obtain ⟨hstages, howned⟩ := h
  rw [List.forall₂_eq_eq_eq] at hstages
  cases p
  cases q
  rw [Arrow.Plan.mk.injEq]
  exact ⟨hstages, howned⟩

theorem Monitor.Plan.Recoded.eq {p q : Monitor.Plan} (h : Monitor.Plan.Recoded Eq p q) : p = q := by
  cases h with
  | count times isStrict h => rw [h]
  | keep ms h => rw [h]
  | delay ms => rfl
  | slope unit h => rw [h]

theorem FragmentBody.Recoded.eq {b c : FragmentBody} (h : FragmentBody.Recoded Eq b c) : b = c := by
  cases h with
  | chain h => rw [h.eq]
  | arrow h => rw [h.eq]
  | monitor h => rw [h.eq]

/-- The second body has other conditions, but a verdict is the same. -/
structure FragmentBody.Retested (R : Code → Code → Prop) (b c : FragmentBody) : Prop where
  recoded : FragmentBody.Recoded R b c
  verdict : ∀ p q, b = .chain p → c = .chain q → p.verdict = q.verdict

namespace FragmentBody.Retested

variable {R : Code → Code → Prop}

theorem chain {p q : Chain.Plan} (h : Chain.Plan.Recoded R p q) (hverdict : p.verdict = q.verdict) :
    FragmentBody.Retested R (.chain p) (.chain q) := by
  refine ⟨.chain h, fun p' q' hp hq => ?_⟩
  cases hp
  cases hq
  exact hverdict

theorem arrow {p q : Arrow.Plan} (h : Arrow.Plan.Recoded R p q) :
    FragmentBody.Retested R (.arrow p) (.arrow q) :=
  ⟨.arrow h, fun _ _ hp => by cases hp⟩

theorem monitor {p q : Monitor.Plan} (h : Monitor.Plan.Recoded R p q) :
    FragmentBody.Retested R (.monitor p) (.monitor q) :=
  ⟨.monitor h, fun _ _ hp => by cases hp⟩

theorem same (hR : ∀ c, R c c) (b : FragmentBody) : FragmentBody.Retested R b b := by
  refine ⟨.same hR b, fun p q hp hq => ?_⟩
  cases hp.symm.trans hq
  rfl

end FragmentBody.Retested

/-! ### Fragments that run alike -/

section

variable {R : Code → Code → Prop} {fs gs : List Fragment} {eval eval' : Evaluator}

/-- Replaced code evaluates alike, among the one fragments and among the others. -/
def EvaluateAlike (R : Code → Code → Prop) (fs gs : List Fragment) (eval eval' : Evaluator) : Prop :=
  ∀ c d, R c d → ∀ subject event anchor registry,
    eval c subject ⟨event, anchor, fs, registry⟩ = eval' d subject ⟨event, anchor, gs, registry⟩

theorem EvaluateAlike.holds (h : EvaluateAlike R fs gs eval eval') {c d : Code} (hc : R c d)
    (subject : Value) (event : Event) (anchor : Option Int64) (registry : Registry) :
    eval.holds c subject ⟨event, anchor, fs, registry⟩ =
      eval'.holds d subject ⟨event, anchor, gs, registry⟩ := by
  rw [Evaluator.holds, Evaluator.holds, h c d hc]

variable (event : Event) (anchor : Option Int64) (registry : Registry)

theorem admits_recoded (h : EvaluateAlike R fs gs eval eval') {tests tests' : List Test}
    (ht : List.Forall₂ (Test.Recoded R) tests tests') :
    Chain.admits eval ⟨event, anchor, fs, registry⟩ tests =
      Chain.admits eval' ⟨event, anchor, gs, registry⟩ tests' := by
  induction ht with
  | nil => rfl
  | cons htest _ ih =>
    cases htest with
    | condition hc => simp only [Chain.admits, h.holds hc, ih]
    | extension name => simp only [Chain.admits, ih]

theorem judge_recoded (h : EvaluateAlike R fs gs eval eval') {test test' : Test}
    (ht : Test.Recoded R test test') (v : Value) :
    Chain.judge eval ⟨event, anchor, fs, registry⟩ test v =
      Chain.judge eval' ⟨event, anchor, gs, registry⟩ test' v := by
  cases ht with
  | condition hc => exact h.holds hc v event anchor registry
  | extension name => rfl

theorem countHits_recoded (h : EvaluateAlike R fs gs eval eval') {c d : Code} (hc : R c d)
    (batch : List Event) :
    Chain.countHits eval c ⟨event, anchor, fs, registry⟩ batch =
      Chain.countHits eval' d ⟨event, anchor, gs, registry⟩ batch := by
  induction batch with
  | nil => rfl
  | cons e es ih => rw [Chain.countHits, Chain.countHits, h.holds hc, ih]

theorem aggregate_recoded (h : EvaluateAlike R fs gs eval eval') {how how' : Chain.Aggregation}
    (ha : Chain.Aggregation.Recoded R how how') (batch : List Event) :
    Chain.aggregate eval how batch ⟨event, anchor, fs, registry⟩ =
      Chain.aggregate eval' how' batch ⟨event, anchor, gs, registry⟩ := by
  cases ha with
  | hitRate hc => rw [Chain.aggregate, Chain.aggregate, countHits_recoded event anchor registry h hc]
  | _ => rfl

theorem chain_recoded (h : EvaluateAlike R fs gs eval eval') (name : String) {p q : Chain.Plan}
    (hpq : Chain.Plan.Recoded R p q) :
    Chain.run eval name p ⟨event, anchor, fs, registry⟩ =
      Chain.run eval' name q ⟨event, anchor, gs, registry⟩ := by
  simp only [Chain.run, hpq.take, hpq.sampler, hpq.clears,
    admits_recoded event anchor registry h hpq.filters,
    aggregate_recoded event anchor registry h hpq.aggregation,
    judge_recoded event anchor registry h hpq.verdict]

theorem arrow_recoded (h : EvaluateAlike R fs gs eval eval') {p q : Arrow.Plan}
    (hpq : Arrow.Plan.Recoded R p q) :
    Arrow.run eval p ⟨event, anchor, fs, registry⟩ =
      Arrow.run eval' q ⟨event, anchor, gs, registry⟩ := by
  rw [Arrow.run, Arrow.run, hpq.owned]
  refine congrArg (Step.own >>= ·) (funext fun state => ?_)
  have hlength := hpq.stages.length_eq
  cases hp : p.stages[state.pointer]? with
  | none => rw [getElem_none_of_forall₂ hpq.stages hp]
  | some c =>
    obtain ⟨d, hd, hcd⟩ := getElem_of_forall₂ hpq.stages hp
    rw [hd, hlength]
    simp only [h.holds hcd]

theorem monitor_recoded (h : EvaluateAlike R fs gs eval eval') {p q : Monitor.Plan}
    (hpq : Monitor.Plan.Recoded R p q) :
    Monitor.run eval p ⟨event, anchor, fs, registry⟩ =
      Monitor.run eval' q ⟨event, anchor, gs, registry⟩ := by
  cases hpq with
  | count times isStrict hc => simp only [Monitor.run, Monitor.runCount, h.holds hc]
  | keep ms hc => simp only [Monitor.run, Monitor.runKeep, h.holds hc]
  | delay ms => rfl
  | slope unit hc => simp only [Monitor.run, Monitor.runSlope, h.holds hc]

theorem initial_recoded {a b : FragmentBody} (h : FragmentBody.Recoded R a b) :
    a.initial = b.initial := by
  cases h with
  | chain hpq => rfl
  | arrow hpq => rfl
  | monitor hpq => cases hpq <;> rfl

theorem fragment_recoded (h : EvaluateAlike R fs gs eval eval') {f g : Fragment}
    (hfg : Fragment.Recoded R f g) :
    f.run eval ⟨event, anchor, fs, registry⟩ = g.run eval' ⟨event, anchor, gs, registry⟩ := by
  obtain ⟨name, body⟩ := f
  obtain ⟨name', body'⟩ := g
  obtain ⟨rfl, hbody⟩ := hfg
  refine congrArg (Run.note (.called name) >>= ·) (funext fun _ => ?_)
  refine congrArg (state >>= ·) (funext fun s => ?_)
  simp only [initial_recoded hbody]
  -- the way out for a state of another fragment is taken on both sides or on none
  cases hbody with
  | chain hpq =>
    cases (s.env.states.get? name).getD _ with
    | chain own =>
      exact congrArg (withState name .chain own) (chain_recoded event anchor registry h name hpq)
    | _ => rfl
  | arrow hpq =>
    cases (s.env.states.get? name).getD _ with
    | arrow own =>
      exact congrArg (withState name .arrow own) (arrow_recoded event anchor registry h hpq)
    | _ => rfl
  | monitor hpq =>
    cases (s.env.states.get? name).getD _ with
    | monitor own =>
      exact congrArg (withState name .monitor own) (monitor_recoded event anchor registry h hpq)
    | _ => rfl

end

/-! ### Rules that answer alike -/

section

variable {R : Code → Code → Prop} {fs gs : List Fragment}

/-- Calls that answer alike, among the one fragments and among the others. -/
def CallAlike (fs gs : List Fragment) (call call' : String → Nat → Frame → Run Bool) : Prop :=
  ∀ name index event anchor registry,
    call name index ⟨event, anchor, fs, registry⟩ = call' name index ⟨event, anchor, gs, registry⟩

/-- Fragments of one name that run alike if the calls inside them answer alike. -/
structure Fragment.RunsAlike (fs gs : List Fragment) (f g : Fragment) : Prop where
  name : f.name = g.name
  run : ∀ {call call'}, CallAlike fs gs call call' → ∀ event anchor registry,
    f.run (Code.evaluate call) ⟨event, anchor, fs, registry⟩ =
      g.run (Code.evaluate call') ⟨event, anchor, gs, registry⟩

/-- Calls that answer alike make code that evaluates alike so, among the one fragments and among the
others. -/
theorem evaluateAlike {call call' : String → Nat → Frame → Run Bool} (hR : ∀ c d, R c d → c.Same d)
    (hcall : CallAlike fs gs call call') :
    EvaluateAlike R fs gs (Code.evaluate call) (Code.evaluate call') := by
  intro c d hcd subject event anchor registry
  rw [hR c d hcd]
  clear hcd
  induction d with
  | literal v => rfl
  | subject => rfl
  | binary op left right ihl ihr => cases op <;> simp only [Code.evaluate, ihl, ihr]
  | not inner ih => simp only [Code.evaluate, ih]
  | step up operand ih => simp only [Code.evaluate, ih]
  | compare op operand ih => simp only [Code.evaluate, ih]
  | call name index => simp only [Code.evaluate, hcall name index]
  | filter extension => rfl

theorem Fragment.Recoded.runsAlike (hR : ∀ c d, R c d → c.Same d) {f g : Fragment}
    (hfg : Fragment.Recoded R f g) : Fragment.RunsAlike fs gs f g :=
  ⟨hfg.name, fun hcall event anchor registry =>
    fragment_recoded event anchor registry (evaluateAlike hR hcall) hfg⟩

theorem callAlike (hfs : List.Forall₂ (Fragment.RunsAlike fs gs) fs gs) (depth : Nat) :
    CallAlike fs gs (callFragment depth) (callFragment depth) := by
  induction depth with
  | zero =>
    intro name index event anchor registry
    rfl
  | succ depth ih =>
    intro name index event anchor registry
    rw [callFragment, callFragment]
    cases hf : fs[index]? with
    | none => simp only [getElem_none_of_forall₂ hfs hf]
    | some f =>
      obtain ⟨g, hg, hfg⟩ := getElem_of_forall₂ hfs hf
      simp only [hg, hfg.name, hfg.run ih]

theorem Matcher.feed_alike {rule rule' : Rule} (hentry : R rule.entry rule'.entry)
    (hR : ∀ c d, R c d → c.Same d)
    (hfs : List.Forall₂ (Fragment.RunsAlike rule.fragments rule'.fragments) rule.fragments rule'.fragments)
    (hregistry : rule.registry = rule'.registry) (env : Environment) (event : Event) :
    ∃ answer env', (⟨rule, env⟩ : Matcher).feed event = (answer, ⟨rule, env'⟩) ∧
      (⟨rule', env⟩ : Matcher).feed event = (answer, ⟨rule', env'⟩) := by
  have hrun : evaluate rule.entry event.value ⟨event, none, rule.fragments, rule.registry⟩ =
      evaluate rule'.entry event.value ⟨event, none, rule'.fragments, rule'.registry⟩ := by
    rw [evaluate, evaluate, hregistry, hfs.length_eq]
    exact evaluateAlike hR (callAlike hfs _) _ _ hentry _ _ _ _
  cases hs : (evaluate rule'.entry event.value
      ⟨event, none, rule'.fragments, rule'.registry⟩).run ⟨env, []⟩ with
  | mk r s =>
    refine ⟨⟨event, r.map Value.asBool, s.trace.reverse⟩, s.env, ?_, ?_⟩
    · simp only [feed, hrun, hs]
    · simp only [feed, hs]

theorem Matcher.feed_recoded (hR : ∀ c d, R c d → c.Same d) {rule rule' : Rule}
    (h : Rule.Recoded R rule rule') (env : Environment) (event : Event) :
    ∃ answer env', (⟨rule, env⟩ : Matcher).feed event = (answer, ⟨rule, env'⟩) ∧
      (⟨rule', env⟩ : Matcher).feed event = (answer, ⟨rule', env'⟩) :=
  feed_alike h.entry hR (h.fragments.imp fun _ _ hfg => hfg.runsAlike hR) h.registry env event

end

end EventRules
