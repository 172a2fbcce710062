import EventRules.Matcher
import EventRules.Proofs.Lowering.Expressions
import EventRules.Proofs.Matching.Selection
import EventRules.Proofs.Run.Calls

/-!
# Runs of matchers

A matcher goes on after an error, with the states that the failed evaluation left. Matchers whose rules
are twins, and whose states agree, answer the same from then on. A rule is its own twin: its calls find
their fragments, its extensions are registered, and it calculates only if its expression does.
-/

namespace EventRules
set_option autoImplicit false

open Routine Lowering

namespace Matcher

/-- What is left after events, whether they failed or not. -/
def after (m : Matcher) (events : List Event) : Matcher := events.foldl (fun m e => (m.feed e).2) m

/-- What is said of each of the events. -/
def results (m : Matcher) : List Event → List (Except RunError Bool)
  | [] => []
  | e :: es => (m.feed e).1.result :: (m.feed e).2.results es

@[simp] theorem after_cons (m : Matcher) (e : Event) (es : List Event) :
    m.after (e :: es) = (m.feed e).2.after es := rfl

@[simp] theorem feed_rule (m : Matcher) (e : Event) : (m.feed e).2.rule = m.rule := rfl

theorem after_rule (m : Matcher) (events : List Event) : (m.after events).rule = m.rule := by
  induction events generalizing m with
  | nil => rfl
  | cons e es ih => rw [after_cons, ih, feed_rule]

/-- The session that an evaluation begins with. -/
def session (m : Matcher) : Session := ⟨m.env, []⟩

theorem feed_run {m : Matcher} {event : Event} {r : Except RunError Value} {s : Session}
    (h : (evaluate m.rule.entry event.value ⟨event, none, m.rule.fragments, m.rule.registry⟩).run
      m.session = (r, s)) :
    (m.feed event).1.result = r.map Value.asBool ∧ (m.feed event).2 = ⟨m.rule, s.env⟩ := by
  rw [feed]
  change (evaluate m.rule.entry event.value ⟨event, none, m.rule.fragments, m.rule.registry⟩).run
    ⟨m.env, []⟩ = (r, s) at h
  rw [h]
  exact ⟨rfl, rfl⟩

/-- A rule that is a call of a fragment answers what the fragment does. -/
theorem feed_called {m : Matcher} {name : String} {index : Nat} {f : Fragment}
    (hentry : m.rule.entry = .call name index) (hf : m.rule.fragments[index]? = some f)
    (hname : f.name = name) (event : Event) :
    ∃ depth, ∀ r t, (f.run (Code.evaluate (callFragment depth))
        ⟨event, none, m.rule.fragments, m.rule.registry⟩).run m.session = (r, t) →
      (m.feed event).1.result = r ∧ (m.feed event).2 = ⟨m.rule, t.env⟩ := by
  let frame : Frame := ⟨event, none, m.rule.fragments, m.rule.registry⟩
  have hlt := (List.getElem?_eq_some_iff.mp hf).1
  obtain ⟨depth, hdepth⟩ := Nat.exists_eq_succ_of_ne_zero (Nat.ne_of_gt (Nat.zero_lt_of_lt hlt))
  have hcall : callFragment m.rule.fragments.length name index frame =
      f.run (Code.evaluate (callFragment depth)) frame := by
    have hfragment : frame.fragments[index]? = some f := hf
    rw [hdepth, callFragment]
    simp only [hfragment, hname, if_true]
  have heval : evaluate m.rule.entry event.value frame =
      f.run (Code.evaluate (callFragment depth)) frame >>= fun b => pure (.boolean b) := by
    rw [← hcall, hentry]
    rfl
  refine ⟨depth, ?_⟩
  intro r t hrun
  cases r with
  | error e => exact feed_run ((congrArg (run · m.session) heval).trans (run_bind_error hrun _))
  | ok b => exact feed_run ((congrArg (run · m.session) heval).trans (run_bind_ok hrun _))

/-- A fragment that answers, seen from the answer. -/
theorem fragment_of_feed {m : Matcher} {name : String} {index : Nat} {f : Fragment}
    (hentry : m.rule.entry = .call name index) (hf : m.rule.fragments[index]? = some f)
    (hname : f.name = name) {event : Event} {b : Bool} (h : (m.feed event).1.result = .ok b) :
    ∃ eval frame t, (f.run eval frame).run m.session = (.ok b, t) ∧ (m.feed event).2.env = t.env := by
  obtain ⟨depth, hfeed⟩ := feed_called hentry hf hname event
  obtain ⟨hresult, hnext⟩ := hfeed _ _ rfl
  rw [hresult] at h
  exact ⟨_, _, _, Prod.ext h rfl, congrArg Matcher.env hnext⟩

end Matcher

/-- A step on the state of a fragment, and where its state is put. -/
theorem withState_ok {State : Type} {name : String} {wrap : State → FragmentState} {own : State}
    {step : Step State Bool} {s t : Session} {b : Bool}
    (h : (withState name wrap own step).run s = (.ok b, t)) :
    ∃ own' w, step.run (own, { s with env := { s.env with states := s.env.states.remove name } }) =
        (.ok b, (own', w)) ∧
      t = { w with env := { w.env with states := w.env.states.put name (wrap own') } } := by
  change withState name wrap own step s = (.ok b, t) at h
  rw [withState] at h
  cases hstep : step.run (own, { s with env := { s.env with states := s.env.states.remove name } }) with
  | mk r u =>
    rw [hstep] at h
    cases h
    exact ⟨u.1, u.2, rfl, rfl⟩

theorem withState_run {State : Type} (name : String) (wrap : State → FragmentState) {own own' : State}
    {step : Step State Bool} {s w : Session} {r : Except RunError Bool}
    (h : step.run (own, { s with env := { s.env with states := s.env.states.remove name } }) =
      (r, (own', w))) :
    ∃ t, (withState name wrap own step).run s = (r, t) ∧
      t.env.states.get? name = some (wrap own') := by
  refine ⟨{ w with env := { w.env with states := w.env.states.put name (wrap own') } }, ?_, ?_⟩
  · change withState name wrap own step s = _
    rw [withState]
    simp only [h]
  · exact Keyed.get_put_self w.env.states name _

section

variable {site : Site} {exact : Prop} {base base' : Keyed FragmentState}

/-- Two matchers at the two sides of a site. -/
structure MatchersAgree (site : Site) (exact : Prop) (base base' : Keyed FragmentState)
    (m n : Matcher) : Prop where
  left : m.rule.fragments = site.left
  right : n.rule.fragments = site.right
  left_registry : m.rule.registry = site.registry
  right_registry : n.rule.registry = site.registry
  entry : CodeTwin site m.rule.entry n.rule.entry
  states : Agree site exact base base' m.session n.session

theorem feed_agree (hw : site.Twins) {m n : Matcher} (h : MatchersAgree site exact base base' m n)
    (event : Event) :
    MatchersAgree site exact base base' (m.feed event).2 (n.feed event).2 ∧
      SameOutcome (RunError.Twin site) Eq (m.feed event).1.result (n.feed event).1.result := by
  obtain ⟨hl, hr, hlr, hrr, he, hs⟩ := h
  obtain ⟨hs', ho⟩ := evaluate_coupled hw he event.value event none _ _ hs
  have hleft : (⟨event, none, m.rule.fragments, m.rule.registry⟩ : Frame) = site.leftFrame event none := by
    rw [hl, hlr]
    rfl
  have hright : (⟨event, none, n.rule.fragments, n.rule.registry⟩ : Frame) =
      site.rightFrame event none := by
    rw [hr, hrr]
    rfl
  rw [← hleft, ← hright] at hs' ho
  refine ⟨⟨hl, hr, hlr, hrr, he, hs'.of_env rfl rfl⟩, ?_⟩
  exact ho.map fun a b hab => congrArg Value.asBool hab

theorem results_agree (hw : site.Twins) {m n : Matcher} (h : MatchersAgree site exact base base' m n)
    (events : List Event) :
    List.Forall₂ (SameOutcome (RunError.Twin site) Eq) (m.results events) (n.results events) := by
  induction events generalizing m n with
  | nil => exact .nil
  | cons e es ih =>
    obtain ⟨h', ho⟩ := feed_agree hw h e
    exact .cons ho (ih h')

theorem Agree.fresh (hw : site.Twins) (exact : Prop) {s t : Session} (hs : s.env.states = .empty)
    (ht : t.env.states = .empty) : Agree site exact .empty .empty s t := by
  constructor
  · intro j f g hf hg
    obtain ⟨f', hf', hbody⟩ := hw.body hg
    obtain rfl : f = f' := Option.some.inj (hf.symm.trans hf')
    rw [Fragment.stateIn, Fragment.stateIn, hs, ht]
    exact ⟨Site.initial_similar hbody exact, g.body.fits_initial⟩
  · intro name _
    rw [hs]
  · intro name _
    rw [ht]

end

/-! ### A rule beside itself -/

namespace Rule

variable {registry : Registry} {constants : Keyed Value} {source : String} {e : Expr} {rule : Rule}

/-- One copy of a rule on both sides. -/
def site (rule : Rule) (calculates : Prop) : Site :=
  ⟨rule.registry, calculates, rule.fragments, rule.fragments, 0⟩

theorem same_fragment {calculates : Prop} {j : Nat} {f g : Fragment}
    (hf : (rule.site calculates).left[(rule.site calculates).offset + j]? = some f)
    (hg : (rule.site calculates).right[j]? = some g) : f = g := by
  have hindex : (rule.site calculates).offset + j = j := Nat.zero_add j
  rw [hindex] at hf
  exact Option.some.inj (hf.symm.trans hg)

theorem ofExpr_ok (h : ofExpr registry constants source e = .ok rule) :
    ∃ entry output, (lower ⟨constants, registry, none⟩ e).run .empty = (.ok entry, output) ∧
      rule = ⟨source, entry, output.fragments, constants, registry, output.warnings⟩ := by
  rw [ofExpr] at h
  cases hrun : (lower ⟨constants, registry, none⟩ e).run .empty with
  | mk r output =>
    rw [hrun] at h
    cases r with
    | error err => cases h
    | ok entry => exact ⟨entry, output, rfl, (Except.ok.inj h).symm⟩

/-- The rule of a chain is a call of its last fragment, which is the chain. -/
theorem chain_ofExpr {calls : List (Call Expr)}
    (h : ofExpr registry constants source (.chain calls) = .ok rule) :
    ∃ name plan, (∃ o t, (chainPlan ⟨constants, registry, none⟩
        (operandCalls ⟨constants, registry, none⟩ calls)).run o = (.ok plan, t)) ∧
      rule.entry = .call name (rule.fragments.length - 1) ∧
      rule.fragments[rule.fragments.length - 1]? = some ⟨name, .chain plan⟩ := by
  obtain ⟨entry, output, hrun, rfl⟩ := ofExpr_ok h
  rw [lower] at hrun
  obtain ⟨name, plan, before, hplan, hentry, hfragments⟩ := chain_lowered hrun
  have hlength : output.fragments.length - 1 = before.length := by
    rw [hfragments, List.length_append]
    rfl
  refine ⟨name, plan, hplan, ?_, ?_⟩
  · rw [hlength]
    exact hentry
  · rw [hlength, hfragments, List.getElem?_concat_length]

theorem inStep_empty (d : Doubling) (o : Output) (h : o.fragments.length = d.offset) :
    InStep d o .empty := by
  refine ⟨by rw [h]; rfl, fun {j g} hg => ?_⟩
  simp [Output.empty] at hg

/-- What can be lowered behind other fragments can be lowered alone. -/
theorem lowered_alone (d : Doubling) {scope : Scope} {o u : Output} {c : Code}
    (hr : scope.registry = d.registry) (hc : e.calculates = true → d.calculates)
    (ho : o.fragments.length = d.offset) (h : (lower scope e).run o = (.ok c, u)) :
    ∃ c' u', (lower scope e).run .empty = (.ok c', u') ∧ Grows o u ∧ Grows .empty u' ∧
      InStep d u u' ∧ CodeTwin (d.site u u') c c' := by
  obtain ⟨hl, hr, hs, hout⟩ := lower_alike d e scope hr hc o .empty (inStep_empty d o ho)
  rw [h] at hl hs hout
  cases halone : (lower scope e).run .empty with
  | mk r u' =>
    rw [halone] at hr hs hout
    cases hout with
    | ok htwin => exact ⟨_, u', rfl, hl, hr, hs, htwin⟩

theorem twins_ofExpr (h : ofExpr registry constants source e = .ok rule) {calculates : Prop}
    (hc : e.calculates = true → calculates) :
    (rule.site calculates).Twins ∧ CodeTwin (rule.site calculates) rule.entry rule.entry := by
  obtain ⟨entry, output, hrun, rfl⟩ := ofExpr_ok h
  obtain ⟨_, _, hrun', hl, hr, hs, htwin⟩ := lowered_alone ⟨registry, calculates, 0⟩ rfl hc rfl hrun
  rw [hrun] at hrun'
  cases hrun'
  exact ⟨hs.twins hl hr, htwin⟩

theorem matcher_agrees (h : ofExpr registry constants source e = .ok rule) {calculates : Prop}
    (hc : e.calculates = true → calculates) :
    MatchersAgree (rule.site calculates) True .empty .empty rule.matcher rule.matcher := by
  obtain ⟨hw, he⟩ := twins_ofExpr h hc
  exact ⟨rfl, rfl, rfl, rfl, he, .fresh hw True rfl rfl⟩

theorem eq_of_outcome {calculates : Prop} {r r' : Except RunError Bool}
    (h : SameOutcome (RunError.Twin (rule.site calculates)) Eq r r') : r = r' := by
  cases h with
  | ok h => rw [h]
  | error h =>
    cases h with
    | startAfterEnd hf hg _ _ _ => rw [same_fragment hf hg]
    | calculation _ e => rfl

theorem eq_of_outcomes {calculates : Prop} {rs rs' : List (Except RunError Bool)}
    (h : List.Forall₂ (SameOutcome (RunError.Twin (rule.site calculates)) Eq) rs rs') : rs = rs' := by
  induction h with
  | nil => rfl
  | cons ho _ ih => rw [eq_of_outcome ho, ih]

end Rule

theorem after_agrees {m : Matcher} {rule : Rule} {calculates : Prop} (hw : (rule.site calculates).Twins)
    (h : MatchersAgree (rule.site calculates) True .empty .empty m m) (events : List Event) :
    MatchersAgree (rule.site calculates) True .empty .empty (m.after events) (m.after events) := by
  induction events generalizing m with
  | nil => exact h
  | cons e es ih => exact ih (feed_agree hw h e).1

end EventRules
