import EventRules.Proofs.Lowering.Pipelines
import EventRules.Proofs.Lowering.Places
import EventRules.Proofs.Lowering.Strictness
import EventRules.Proofs.Matching.Constants
import EventRules.Proofs.Run.Recoding

/-!
# Stacked filters

Two filters one behind the other let the same events in as one filter with both conditions joined by
`and`: the second condition is not asked when the first one fails, and a filter extension says the same
of an event whether it stands by itself or inside a condition. So the two rules compile to the same
fragments but for the filters of the last one, and their matchers answer alike with the same states.
-/

namespace EventRules
set_option autoImplicit false

open Routine

/-- Calls as they are written: one alone is no chain. -/
def Expr.ofCalls : List (Call Expr) → Expr
  | [c] => .call c
  | calls => .chain calls

/-- The call `filter(e)`. -/
def filterBy (e : Expr) : Call Expr := ⟨⟨.name, "filter", .nowhere⟩, false, [e]⟩

/-- A call of an extension with the strict marker. -/
def Expr.isStrictExtension (registry : Registry) : Expr → Bool
  | .call c => c.strict && (registry.kind? c.name.text).isSome
  | .scalar .. | .ident _ | .binary .. | .unary .. | .compare .. | .range .. | .arrow _ | .chain _
  | .lambda .. => false

/-- The code is the test inside a condition. -/
inductive Test.StandsFor : Test → Code → Prop where
  | condition (code : Code) : StandsFor (.condition code) code
  | extension (name : String) : StandsFor (.extension name) (.filter name)

namespace Lowering

/-! ### Lowering -/

/-- Plans that differ in two filters on the one side and both joined on the other. -/
def Stacked (p q : Chain.Plan) : Prop :=
  ∃ s t c d, s.StandsFor c ∧ t.StandsFor d ∧ PlanBeside [s, t] [.condition (.binary .and c d)] p q

variable {scope : Scope} {a b : Expr}

/-- No extension takes the name of a monitor. -/
def SparesMonitors (registry : Registry) : Prop :=
  ∀ name ∈ ["count", "keep", "delay", "slope"], registry.kind? name = none

theorem monitor_of_extension {registry : Registry} (h : SparesMonitors registry) {name : String}
    (hname : (registry.kind? name).isSome = true) : MonitorKind.ofName? name = none := by
  have hne : name ∉ ["count", "keep", "delay", "slope"] := by
    intro hmem
    rw [h name hmem] at hname
    cases hname
  simp only [List.mem_cons, List.not_mem_nil, or_false, not_or] at hne
  rw [MonitorKind.ofName?.eq_def]
  split
  · exact absurd rfl hne.1
  · exact absurd rfl hne.2.1
  · exact absurd rfl hne.2.2.1
  · exact absurd rfl hne.2.2.2
  · rfl

/-- A filter extension alone is lowered to code that asks it. -/
theorem lower_extension {name : Token} (h : SparesMonitors scope.registry)
    (hfilter : scope.registry.isFilter name.text = true) :
    lower scope (.call ⟨name, false, []⟩) = pure (.filter name.text) := by
  have hkind := kind_of_isFilter hfilter
  have hmonitor : MonitorKind.ofName? name.text = none :=
    monitor_of_extension h (by rw [hkind]; rfl)
  rw [lower, call]
  simp only [Bool.false_and, Bool.false_eq_true, if_false, hmonitor, hfilter, if_true]
  rfl

/-- The extension that stands for a filter, where its marker would not be lost. -/
theorem extension_of_filter {name : String} (h : SparesMonitors scope.registry)
    (hs : a.isStrictExtension scope.registry = false) (hname : filterExtension? scope a = some name) :
    lower scope a = pure (.filter name) := by
  revert hname hs
  fun_cases filterExtension? scope a with
  | case1 token isStrict hfilter =>
    intro hs hname
    obtain rfl := Option.some.inj hname
    have hkind : (scope.registry.kind? token.text).isSome = true := by
      rw [kind_of_isFilter hfilter]
      rfl
    obtain rfl : isStrict = false := by simpa [Expr.isStrictExtension, hkind] using hs
    exact lower_extension h hfilter
  | case2 token isStrict hfilter =>
    intro _ hname
    cases hname
  | case3 e hne =>
    intro _ hname
    cases hname

theorem element_of_condition {e : Expr} (he : isCondition e = true)
    (hextension : filterExtension? scope e = none) :
    element scope (operandCall scope (filterBy e)) =
      lower scope e >>= fun code => pure (.filter (some (.condition code))) := by
  have hcondition : ∀ c : OperandCall, condition c ⟨e, lower scope e⟩ = lower scope e := by
    intro c
    rw [condition, he]
    rfl
  change filterElement scope ⟨(filterBy e).name, false, [⟨e, lower scope e⟩]⟩ = _
  simp only [filterElement, hextension, hcondition]

/-- A filter is lowered beside its condition alone. -/
theorem filter_beside_condition (h : SparesMonitors scope.registry) (ha : isCondition a = true)
    (hs : a.isStrictExtension scope.registry = false) :
    Abreast (fun e c => ∃ t : Test, e = .filter (some t) ∧ t.StandsFor c)
      (element scope (operandCall scope (filterBy a))) (lower scope a) := by
  cases hextension : filterExtension? scope a with
  | some name =>
    have hfilter : element scope (operandCall scope (filterBy a)) =
        pure (.filter (some (.extension name))) := by
      change filterElement scope ⟨(filterBy a).name, false, [⟨a, lower scope a⟩]⟩ = _
      simp only [filterElement, hextension]
    rw [hfilter, extension_of_filter h hs hextension]
    exact Coupled.pure ⟨_, rfl, .extension name⟩
  | none =>
    rw [element_of_condition ha hextension]
    rintro o _ rfl
    cases hrun : (lower scope a).run o with
    | mk r u =>
      cases r with
      | ok code =>
        rw [run_bind_ok hrun]
        exact ⟨rfl, .ok ⟨.condition code, rfl, .condition code⟩⟩
      | error e =>
        rw [run_bind_error hrun]
        exact ⟨rfl, .error trivial⟩

/-- The draft of a chain that begins with filters. -/
def filtered (tests : List Test) : Draft :=
  { Draft.empty with phase := .filter, last := some (filterBy default).name, filters := tests }

/-- A filter with a conjunction is lowered like its sides, one after the other. -/
theorem pipeline_joined (a b : Expr) (calls : List OperandCall) :
    pipeline scope .empty (operandCall scope (filterBy (.binary .and a b)) :: calls) =
      lower scope a >>= fun l => lower scope b >>= fun r =>
        pipeline scope (filtered [.condition (.binary .and l r)]) calls := by
  rw [pipeline, element_of_condition rfl rfl, lower]
  simp only [bind_bind]
  rfl

theorem elements_same (calls : List OperandCall) : List.Forall₂ (ElementsAbreast scope) calls calls :=
  List.forall₂_same.mpr fun c _ => ⟨rfl, .refl (element scope c)⟩

theorem stacked_pipeline (h : SparesMonitors scope.registry) (ha : isCondition a = true)
    (hb : isCondition b = true) (hsa : a.isStrictExtension scope.registry = false)
    (hsb : b.isStrictExtension scope.registry = false) (calls : List OperandCall) :
    Abreast (fun d d' => ∃ s t l r, s.StandsFor l ∧ t.StandsFor r ∧
        Draft.Beside [s, t] [.condition (.binary .and l r)] d d')
      (pipeline scope .empty
        (operandCall scope (filterBy a) :: operandCall scope (filterBy b) :: calls))
      (pipeline scope .empty (operandCall scope (filterBy (.binary .and a b)) :: calls)) := by
  rw [pipeline_joined, pipeline]
  refine Coupled.bind (filter_beside_condition h ha hsa) ?_
  rintro _ l ⟨s, rfl, hs⟩
  change Abreast _ (pipeline scope (filtered [s]) (operandCall scope (filterBy b) :: calls)) _
  rw [pipeline]
  refine Coupled.bind (filter_beside_condition h hb hsb) ?_
  rintro _ r ⟨t, rfl, ht⟩
  change Abreast _ (pipeline scope (filtered [s, t]) calls) _
  have hbeside : Draft.Beside [s, t] [.condition (.binary .and l r)] (filtered [s, t])
      (filtered [.condition (.binary .and l r)]) := ⟨[], (filtered []).last, rfl, rfl⟩
  exact Abreast.imp (pipeline_beside (elements_same calls) hbeside) fun d d' hd => ⟨s, t, l, r, hs, ht, hd⟩

theorem stacked_plan (h : SparesMonitors scope.registry) (ha : isCondition a = true)
    (hb : isCondition b = true) (hsa : a.isStrictExtension scope.registry = false)
    (hsb : b.isStrictExtension scope.registry = false) (rest : List (Call Expr)) :
    Abreast Stacked (chainPlan scope (operandCalls scope (filterBy a :: filterBy b :: rest)))
      (chainPlan scope (operandCalls scope (filterBy (.binary .and a b) :: rest))) := by
  refine Coupled.bind (stacked_pipeline h ha hb hsa hsb (operandCalls scope rest)) ?_
  rintro d d' ⟨s, t, l, r, hs, ht, hd⟩
  exact Abreast.imp (planBeside hd _ _) fun p q hpq => ⟨s, t, l, r, hs, ht, hpq⟩

/-- Lowerings that both fail, or that differ in the plan of the last fragment. -/
inductive EndsStacked : Except LoweringError Code × Output → Except LoweringError Code × Output → Prop where
  | ok {plan plan' : Chain.Plan} (h : Stacked plan plan') (name : String) (u : Output) :
    EndsStacked
      (.ok (.call name u.fragments.length), { u with fragments := u.fragments ++ [⟨name, .chain plan⟩] })
      (.ok (.call name u.fragments.length), { u with fragments := u.fragments ++ [⟨name, .chain plan'⟩] })
  | error (e e' : LoweringError) (u u' : Output) : EndsStacked (.error e, u) (.error e', u')

theorem stacked_chain (h : SparesMonitors scope.registry) (ha : isCondition a = true)
    (hb : isCondition b = true) (hsa : a.isStrictExtension scope.registry = false)
    (hsb : b.isStrictExtension scope.registry = false) (rest : List (Call Expr)) (o : Output) :
    EndsStacked ((chain scope (operandCalls scope (filterBy a :: filterBy b :: rest))).run o)
      ((chain scope (operandCalls scope (filterBy (.binary .and a b) :: rest))).run o) := by
  obtain ⟨hout, hoc⟩ := stacked_plan h ha hb hsa hsb rest o.begun o.begun rfl
  rw [chain_run, chain_run]
  revert hout hoc
  generalize (chainPlan scope (operandCalls scope (filterBy a :: filterBy b :: rest))).run o.begun = r
  generalize (chainPlan scope (operandCalls scope (filterBy (.binary .and a b) :: rest))).run o.begun = q
  obtain ⟨r, u⟩ := r
  obtain ⟨q, u'⟩ := q
  rintro rfl hoc
  cases hoc with
  | ok hplans => exact .ok hplans s!"chain_{o.issued + 1}" { u with pendingChain := o.pendingChain }
  | error _ => exact .error _ _ _ _

/-- A filter alone is no rule. -/
theorem lone_filter (scope : Scope) (e : Expr) (o : Output) :
    ∃ error u, (lower scope (.call (filterBy e))).run o = (.error error, u) := by
  cases hrun : (lower scope (.call (filterBy e))).run o with
  | mk r u =>
    cases r with
    | error error => exact ⟨error, u, rfl⟩
    | ok code =>
      change (call scope (operandCall scope (filterBy e))).run o = (.ok code, u) at hrun
      have hcall : call scope (operandCall scope (filterBy e)) =
          if scope.registry.isFilter "filter" then
            fail (fault (operandCall scope (filterBy e)) .filterArguments)
          else chain scope [operandCall scope (filterBy e)] := by
        have hkind : MonitorKind.ofName? (operandCall scope (filterBy e)).name.text = none := rfl
        have helement : isElement scope.registry (operandCall scope (filterBy e)).name.text = true := rfl
        rw [call, hkind, helement]
        rfl
      rw [hcall] at hrun
      split at hrun
      · cases hrun
      · exact absurd hrun not_chain_of_one

theorem stacked_lowered (scope : Scope) (h : SparesMonitors scope.registry) (ha : isCondition a = true)
    (hb : isCondition b = true) (hsa : a.isStrictExtension scope.registry = false)
    (hsb : b.isStrictExtension scope.registry = false) (rest : List (Call Expr)) (o : Output) :
    EndsStacked ((lower scope (.ofCalls (filterBy a :: filterBy b :: rest))).run o)
      ((lower scope (.ofCalls (filterBy (.binary .and a b) :: rest))).run o) := by
  have hchains := stacked_chain h ha hb hsa hsb rest o
  cases rest with
  | cons c cs => exact hchains
  | nil =>
    change EndsStacked ((chain scope (operandCalls scope [filterBy a, filterBy b])).run o)
      ((lower scope (.call (filterBy (.binary .and a b)))).run o)
    obtain ⟨error, u, hlone⟩ := lone_filter scope (.binary .and a b) o
    rw [hlone]
    have hjoined : ∀ code v, (chain scope (operandCalls scope [filterBy (.binary .and a b)])).run o ≠
        (.ok code, v) := fun _ _ => not_chain_of_one
    revert hchains hjoined
    generalize (chain scope (operandCalls scope [filterBy a, filterBy b])).run o = r
    generalize (chain scope (operandCalls scope [filterBy (.binary .and a b)])).run o = q
    intro hchains hjoined
    cases hchains with
    | ok hplans name v => exact absurd rfl (hjoined _ _)
    | error e e' v v' => exact .error _ _ _ _

end Lowering

open Lowering

/-! ### Running -/

section

variable {call : String → Nat → Frame → Run Bool} {frame : Frame} {s t : Test} {c d : Code}

/-- Whether a filter lets the event in is what the code that stands for it says of the reading. -/
theorem admits_standing (h : s.StandsFor c) (tests : List Test) :
    Chain.admits (Code.evaluate call) frame (s :: tests) =
      c.evaluate call frame.event.value frame >>= fun v =>
        if v.asBool then Chain.admits (Code.evaluate call) frame tests else pure false := by
  cases h with
  | condition code =>
    rw [Chain.admits]
    exact bind_bind _ (fun v : Value => pure v.asBool) _
  | extension name =>
    rw [Chain.admits, Code.evaluate]
    cases frame.registry.filter name with
    | ok f => rfl
    | error e => rfl

/-- The second of two filters is asked when the first one holds, as the right side of a conjunction is. -/
theorem admits_joined (hs : s.StandsFor c) (ht : t.StandsFor d) (tests : List Test) :
    Chain.admits (Code.evaluate call) frame (s :: t :: tests) =
      Chain.admits (Code.evaluate call) frame (.condition (.binary .and c d) :: tests) := by
  rw [admits_standing hs, admits_standing ht, admits_standing (.condition (.binary .and c d)), Code.evaluate,
    bind_bind]
  refine congrArg (c.evaluate call frame.event.value frame >>= ·) (funext fun l => ?_)
  cases l.asBool with
  | false => rfl
  | true =>
    simp only [Bool.not_true, Bool.false_eq_true, if_false, if_true, bind_bind]
    rfl

theorem chain_joined {p q : Chain.Plan} (h : Stacked p q) (name : String) :
    Chain.run (Code.evaluate call) name p frame = Chain.run (Code.evaluate call) name q frame := by
  obtain ⟨s, t, c, d, hs, ht, later, hfilters, rfl⟩ := h
  have hadmits : Chain.admits (Code.evaluate call) frame p.filters =
      Chain.admits (Code.evaluate call) frame ([.condition (.binary .and c d)] ++ later) := by
    rw [hfilters]
    exact admits_joined hs ht later
  simp only [Chain.run, hadmits]

end

/-- A fragment that is a chain runs as its plan does. -/
theorem fragment_of_chain {eval eval' : Evaluator} {frame frame' : Frame} {name : String} {p q : Chain.Plan}
    (h : Chain.run eval name p frame = Chain.run eval' name q frame') :
    (⟨name, .chain p⟩ : Fragment).run eval frame = (⟨name, .chain q⟩ : Fragment).run eval' frame' := by
  refine congrArg (Run.note (.called name) >>= ·) (funext fun _ => ?_)
  refine congrArg (state >>= ·) (funext fun session => ?_)
  dsimp only [FragmentBody.initial]
  cases (session.env.states.get? name).getD (.chain .initial) with
  | chain own => exact congrArg (withState name .chain own) h
  | _ => rfl

theorem fragment_same {fs gs : List Fragment} (f : Fragment) : Fragment.RunsAlike fs gs f f :=
  Fragment.Recoded.runsAlike (R := Eq) (fun _ _ h => h ▸ fun _ _ _ => rfl) ⟨rfl, .same (fun _ => rfl) f.body⟩

theorem fragment_stacked {fs gs : List Fragment} {name : String} {p q : Chain.Plan} (h : Stacked p q) :
    Fragment.RunsAlike fs gs ⟨name, .chain p⟩ ⟨name, .chain q⟩ := by
  refine ⟨rfl, fun {call call'} hcall event anchor registry => ?_⟩
  rw [(fragment_same (⟨name, .chain p⟩ : Fragment)).run hcall event anchor registry]
  exact fragment_of_chain (chain_joined h name)

/-- The same fragments and, in the end, a chain with stacked filters on the one side and with joined ones
on the other. -/
structure Rule.StackedBeside (rule rule' : Rule) (nested : List Fragment) (name : String)
    (plan plan' : Chain.Plan) : Prop where
  entry : rule.entry = rule'.entry
  registry : rule.registry = rule'.registry
  constants : rule.constants = rule'.constants
  fragments : rule.fragments = nested ++ [⟨name, .chain plan⟩]
  fragments' : rule'.fragments = nested ++ [⟨name, .chain plan'⟩]
  plans : Stacked plan plan'

section

variable {rule rule' : Rule} {nested : List Fragment} {name : String} {plan plan' : Chain.Plan}

theorem feed_stacked (h : rule.StackedBeside rule' nested name plan plan') (env : Environment)
    (event : Event) :
    ∃ answer env', (⟨rule, env⟩ : Matcher).feed event = (answer, ⟨rule, env'⟩) ∧
      (⟨rule', env⟩ : Matcher).feed event = (answer, ⟨rule', env'⟩) := by
  have hfragments : List.Forall₂ (Fragment.RunsAlike rule.fragments rule'.fragments) rule.fragments
      rule'.fragments := by
    generalize hfs : rule.fragments = fs
    generalize hgs : rule'.fragments = gs
    rw [h.fragments] at hfs
    rw [h.fragments'] at hgs
    subst hfs hgs
    exact List.rel_append (List.forall₂_same.mpr fun f _ => fragment_same f)
      (.cons (fragment_stacked h.plans) .nil)
  exact Matcher.feed_alike h.entry (fun _ _ h => h ▸ fun _ _ _ => rfl) hfragments h.registry env event

theorem after_stacked (h : rule.StackedBeside rule' nested name plan plan') (env : Environment)
    (events : List Event) :
    ∃ env', (⟨rule, env⟩ : Matcher).after events = ⟨rule, env'⟩ ∧
      (⟨rule', env⟩ : Matcher).after events = ⟨rule', env'⟩ := by
  induction events generalizing env with
  | nil => exact ⟨env, rfl, rfl⟩
  | cons e es ih =>
    obtain ⟨answer, next, hl, hr⟩ := feed_stacked h env e
    rw [Matcher.after_cons, Matcher.after_cons, hl, hr]
    exact ih next

end

/-- The rules of stacked and of joined filters. -/
theorem stacked_of_exprs {registry : Registry} (k : Keyed Value) (source source' : String)
    {e e' a b : Expr} {rest : List (Call Expr)} (h : SparesMonitors registry) (ha : isCondition a = true)
    (hb : isCondition b = true) (hsa : a.isStrictExtension registry = false)
    (hsb : b.isStrictExtension registry = false)
    (he : e.unplaced = (Expr.ofCalls (filterBy a :: filterBy b :: rest)).unplaced)
    (he' : e'.unplaced = (Expr.ofCalls (filterBy (.binary .and a b) :: rest)).unplaced) :
    (∃ error error', Rule.ofExpr registry k source e = .error error ∧
      Rule.ofExpr registry k source' e' = .error error') ∨
    ∃ rule rule' nested name plan plan', Rule.ofExpr registry k source e = .ok rule ∧
      Rule.ofExpr registry k source' e' = .ok rule' ∧
      rule.StackedBeside rule' nested name plan plan' := by
  obtain ⟨hout, hoc⟩ := lower_of_unplaced he ⟨k, registry, none⟩ .empty .empty rfl
  obtain ⟨hout', hoc'⟩ := lower_of_unplaced he' ⟨k, registry, none⟩ .empty .empty rfl
  have hends : EndsStacked _ _ := stacked_lowered ⟨k, registry, none⟩ h ha hb hsa hsb rest .empty
  revert hends hout hoc hout' hoc'
  rw [Rule.ofExpr, Rule.ofExpr]
  generalize (lower ⟨k, registry, none⟩ e).run .empty = r
  generalize (lower ⟨k, registry, none⟩ e').run .empty = q
  generalize (lower ⟨k, registry, none⟩ (.ofCalls (filterBy a :: filterBy b :: rest))).run .empty = r'
  generalize (lower ⟨k, registry, none⟩ (.ofCalls (filterBy (.binary .and a b) :: rest))).run .empty = q'
  obtain ⟨r, u⟩ := r
  obtain ⟨q, v⟩ := q
  rintro hout hoc hout' hoc' hends
  cases hends with
  | error error error' w w' =>
    cases hoc with
    | error _ =>
      cases hoc' with
      | error _ => exact .inl ⟨_, _, rfl, rfl⟩
  | ok hplans name w =>
    obtain rfl : u = _ := hout
    obtain rfl : v = _ := hout'
    cases hoc with
    | ok hcode =>
      obtain rfl := hcode
      cases hoc' with
      | ok hcode' =>
        obtain rfl := hcode'
        exact .inr ⟨_, _, w.fragments, name, _, _, rfl, rfl, ⟨rfl, rfl, rfl, rfl, rfl, hplans⟩⟩

/-- Two filters one behind the other and one filter with both conditions joined by `and`: either neither
rule is compiled, or both come to the same fragments but for the filters of the last one, and their
matchers say the same of every event with the same states. -/
theorem stacked_filters_conjunction {registry : Registry} {constants : List (String × Value)}
    {k : Keyed Value} {source source' : String} {e e' a b : Expr} (rest : List (Call Expr))
    (h : SparesMonitors registry) (ha : isCondition a = true) (hb : isCondition b = true)
    (hsa : a.isStrictExtension registry = false) (hsb : b.isStrictExtension registry = false)
    (hstacked : selected registry constants source = .ok (k, e))
    (hjoined : selected registry constants source' = .ok (k, e'))
    (he : e.unplaced = (Expr.ofCalls (filterBy a :: filterBy b :: rest)).unplaced)
    (he' : e'.unplaced = (Expr.ofCalls (filterBy (.binary .and a b) :: rest)).unplaced) :
    (∃ error error', compile registry constants source = .error error ∧
      compile registry constants source' = .error error') ∨
    ∃ rule rule' nested name plan plan', compile registry constants source = .ok rule ∧
      compile registry constants source' = .ok rule' ∧
      rule.fragments = nested ++ [⟨name, .chain plan⟩] ∧
      rule'.fragments = nested ++ [⟨name, .chain plan'⟩] ∧ Stacked plan plan' ∧
      ∀ events, (rule.matcher.after events).env = (rule'.matcher.after events).env ∧
        ∀ event, ((rule.matcher.after events).feed event).1 =
          ((rule'.matcher.after events).feed event).1 := by
  rw [compile_eq, hstacked, compile_eq, hjoined]
  obtain ⟨error, error', hl, hr⟩ | ⟨rule, rule', nested, name, plan, plan', hl, hr, hbeside⟩ :=
    stacked_of_exprs k source source' h ha hb hsa hsb he he'
  · refine .inl ⟨.ofLowering error, .ofLowering error', ?_, ?_⟩
    · exact congrArg (Except.mapError CompileError.ofLowering) hl
    · exact congrArg (Except.mapError CompileError.ofLowering) hr
  · refine .inr ⟨rule, rule', nested, name, plan, plan', ?_, ?_, hbeside.fragments, hbeside.fragments',
      hbeside.plans, fun events => ?_⟩
    · exact congrArg (Except.mapError CompileError.ofLowering) hl
    · exact congrArg (Except.mapError CompileError.ofLowering) hr
    · obtain ⟨env, hafter, hafter'⟩ := after_stacked hbeside ⟨rule.constants, .empty⟩ events
      rw [hbeside.constants] at hafter'
      rw [Rule.matcher, Rule.matcher, hafter, hafter']
      refine ⟨rfl, fun event => ?_⟩
      obtain ⟨answer, next, hl, hr⟩ := feed_stacked hbeside env event
      rw [hl, hr]

theorem standard_sparesMonitors : SparesMonitors .standard := by
  simp only [SparesMonitors, List.forall_mem_cons]
  exact ⟨rfl, rfl, rfl, rfl, nofun⟩

/-- The program `filter(numericFilter()).filter(count(>0,2)).count().meet(>0)`. -/
def numericThenCounted : Program → Bool
  | [.bare (.chain [⟨f, false, [.call ⟨n, false, []⟩]⟩,
      ⟨g, false, [.call ⟨c, false, [.compare op (.scalar v t), .scalar w u]⟩]⟩,
      ⟨count, false, []⟩, ⟨meet, false, [.compare op' (.scalar v' t')]⟩])] =>
    decide ((op, op') = (.greater, .greater) ∧ (v, w, v') = (.integer 0, .integer 2, .integer 0) ∧
      [f, n, g, c, t, u, count, meet, t'].map Token.unplaced = [⟨.name, "filter", .nowhere⟩,
        ⟨.name, "numericFilter", .nowhere⟩, ⟨.name, "filter", .nowhere⟩, ⟨.name, "count", .nowhere⟩,
        ⟨.integer, "0", .nowhere⟩, ⟨.integer, "2", .nowhere⟩, ⟨.name, "count", .nowhere⟩,
        ⟨.name, "meet", .nowhere⟩, ⟨.integer, "0", .nowhere⟩])
  | _ => false

/-- The program `filter(numericFilter() && count(>0,2)).count().meet(>0)`. -/
def numericAndCounted : Program → Bool
  | [.bare (.chain [⟨f, false, [.binary .and (.call ⟨n, false, []⟩)
        (.call ⟨c, false, [.compare op (.scalar v t), .scalar w u]⟩)]⟩,
      ⟨count, false, []⟩, ⟨meet, false, [.compare op' (.scalar v' t')]⟩])] =>
    decide ((op, op') = (.greater, .greater) ∧ (v, w, v') = (.integer 0, .integer 2, .integer 0) ∧
      [f, n, c, t, u, count, meet, t'].map Token.unplaced = [⟨.name, "filter", .nowhere⟩,
        ⟨.name, "numericFilter", .nowhere⟩, ⟨.name, "count", .nowhere⟩,
        ⟨.integer, "0", .nowhere⟩, ⟨.integer, "2", .nowhere⟩, ⟨.name, "count", .nowhere⟩,
        ⟨.name, "meet", .nowhere⟩, ⟨.integer, "0", .nowhere⟩])
  | _ => false

/-- An extension and a count with a state of its own: only numbers are counted, on both sides. -/
theorem stacked_filters_conjunction_of_count :
    ∃ rule rule' nested name plan plan',
      compile .standard [] "filter(numericFilter()).filter(count(>0,2)).count().meet(>0)" = .ok rule ∧
      compile .standard [] "filter(numericFilter() && count(>0,2)).count().meet(>0)" = .ok rule' ∧
      rule.fragments.map Fragment.shown = ["count_2() := count((value > 0), 2)",
        "chain_1() := numericFilter().filter(count_2()).collect().count().meet((value > 0))"] ∧
      rule'.fragments.map Fragment.shown = ["count_2() := count((value > 0), 2)",
        "chain_1() := filter((numericFilter(event) && count_2())).collect().count().meet((value > 0))"] ∧
      rule.fragments = nested ++ [⟨name, .chain plan⟩] ∧
      rule'.fragments = nested ++ [⟨name, .chain plan'⟩] ∧ Stacked plan plan' ∧
      ∀ events, (rule.matcher.after events).env = (rule'.matcher.after events).env ∧
        ∀ event, ((rule.matcher.after events).feed event).1 =
          ((rule'.matcher.after events).feed event).1 := by
  obtain ⟨rule, h, hshown⟩ := exists_of_any
    (p := fun rule => decide (rule.fragments.map Fragment.shown = ["count_2() := count((value > 0), 2)",
      "chain_1() := numericFilter().filter(count_2()).collect().count().meet((value > 0))"]))
    (r := compile .standard [] "filter(numericFilter()).filter(count(>0,2)).count().meet(>0)")
    (by decide +kernel)
  obtain ⟨rule', h', hshown'⟩ := exists_of_any
    (p := fun rule => decide (rule.fragments.map Fragment.shown = ["count_2() := count((value > 0), 2)",
      "chain_1() := filter((numericFilter(event) && count_2())).collect().count().meet((value > 0))"]))
    (r := compile .standard [] "filter(numericFilter() && count(>0,2)).count().meet(>0)")
    (by decide +kernel)
  obtain ⟨p, hstacked, hp⟩ := exists_of_any (p := numericThenCounted)
    (r := parseSource "filter(numericFilter()).filter(count(>0,2)).count().meet(>0)") (by decide +kernel)
  obtain ⟨p', hjoined, hp'⟩ := exists_of_any (p := numericAndCounted)
    (r := parseSource "filter(numericFilter() && count(>0,2)).count().meet(>0)") (by decide +kernel)
  rw [numericThenCounted.eq_def] at hp
  rw [numericAndCounted.eq_def] at hp'
  split at hp
  · next f n g c op v t w u count meet op₂ v₂ t₂ =>
    obtain ⟨hops, hvalues, htokens⟩ := of_decide_eq_true hp
    split at hp'
    · next f' n' c' op' v' t' w' u' count' meet' op₂' v₂' t₂' =>
      obtain ⟨hops', hvalues', htokens'⟩ := of_decide_eq_true hp'
      cases hops
      cases hops'
      cases hvalues
      cases hvalues'
      simp only [List.map_cons, List.map_nil, List.cons.injEq, and_true] at htokens htokens'
      obtain ⟨hf, hn, hg, hc, ht, hu, hcount, hmeet, ht₂⟩ := htokens
      obtain ⟨hf', hn', hc', ht', hu', hcount', hmeet', ht₂'⟩ := htokens'
      have hfilter : (⟨.name, "filter", .nowhere⟩ : Token).unplaced = ⟨.name, "filter", .nowhere⟩ := rfl
      obtain ⟨error, -, herror, -⟩ | ⟨rule₁, rule₂, nested, name, plan, plan', h₁, h₂, hrules⟩ :=
        stacked_filters_conjunction (a := .call ⟨n, false, []⟩)
          (b := .call ⟨c, false, [.compare .greater (.scalar (.integer 0) t), .scalar (.integer 2) u]⟩)
          [⟨count, false, []⟩, ⟨meet, false, [.compare .greater (.scalar (.integer 0) t₂)]⟩]
          standard_sparesMonitors rfl rfl rfl rfl (selected_of_bare hstacked) (selected_of_bare hjoined)
          (by simp [Expr.ofCalls, filterBy, Expr.unplaced, Expr.unplacedCalls, Expr.unplacedAll, hf, hg,
            hfilter])
          (by simp [Expr.ofCalls, filterBy, Expr.unplaced, Expr.unplacedCalls, Expr.unplacedAll, hf', hn,
            hn', hc, hc', ht, ht', hu, hu', hcount, hcount', hmeet, hmeet', ht₂, ht₂', hfilter])
      · rw [h] at herror
        cases herror
      · obtain rfl := Except.ok.inj (h.symm.trans h₁)
        obtain rfl := Except.ok.inj (h'.symm.trans h₂)
        exact ⟨rule, rule', nested, name, plan, plan', h, h', of_decide_eq_true hshown,
          of_decide_eq_true hshown', hrules⟩
    · cases hp'
  · cases hp

end EventRules
