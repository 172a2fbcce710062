import EventRules.Proofs.Matching.Runs

/-!
# Names are resolved when a rule is compiled

Whatever is done with a matcher of a compiled rule, it never misses a fragment or an extension, and
every state that it has stored belongs to a fragment of the rule and fits its body. If the expression of
the rule does not calculate, nothing can fail but a take whose indices can select nothing.
-/

namespace EventRules
set_option autoImplicit false

/-- What a host does with a matcher. -/
inductive Action where
  | feed (event : Event)
  | reset

namespace Matcher

def act (m : Matcher) : Action → Matcher
  | .feed event => (m.feed event).2
  | .reset => m.reset

def acted (m : Matcher) (actions : List Action) : Matcher := actions.foldl act m

/-- What is said of the events among the actions. -/
def said (m : Matcher) : List Action → List (Except RunError Bool)
  | [] => []
  | .feed event :: actions => (m.feed event).1.result :: (m.feed event).2.said actions
  | .reset :: actions => m.reset.said actions

end Matcher

/-- The error of a take in a chain of the rule: its indices count from one end, and the first one lies
behind the second. -/
def RunError.IsTakeOf (rule : Rule) (e : RunError) : Prop :=
  ∃ f ∈ rule.fragments, ∃ plan start stop, f.body = .chain plan ∧ plan.take = some (start, some stop) ∧
    e = .startAfterEnd f.name start stop ∧ (0 ≤ start ↔ 0 ≤ stop) ∧ stop < start

variable {rule : Rule} {calculates : Prop} {m : Matcher}

/-- The states of a matcher fit the fragments of its rule, and there are no others. -/
def Matcher.Sound (m : Matcher) (rule : Rule) (calculates : Prop) : Prop :=
  MatchersAgree (rule.site calculates) True .empty .empty m m

theorem error_of_twin {e e' : RunError} (h : RunError.Twin (rule.site calculates) e e') :
    e'.IsTakeOf rule ∨ calculates ∧ ∃ c, e' = .calculation c := by
  cases h with
  | startAfterEnd _ hg hp ht hempty =>
    rw [Chain.isEmptyTake, Bool.and_eq_true, beq_iff_eq, decide_eq_decide, decide_eq_true_eq] at hempty
    exact Or.inl ⟨_, List.mem_of_getElem? hg, _, _, _, hp, ht, rfl, hempty⟩
  | calculation hc c => exact Or.inr ⟨hc, c, rfl⟩

theorem error_resolved {e : RunError} (h : e.IsTakeOf rule ∨ calculates ∧ ∃ c, e = .calculation c) :
    (∀ name, e ≠ .missingFragment name) ∧ ∀ x, e ≠ .extension x := by
  rcases h with ⟨f, -, plan, start, stop, -, -, rfl, -⟩ | ⟨-, c, rfl⟩
  · exact ⟨nofun, nofun⟩
  · exact ⟨nofun, nofun⟩

theorem act_sound (hw : (rule.site calculates).Twins) (h : m.Sound rule calculates) (action : Action) :
    (m.act action).Sound rule calculates := by
  cases action with
  | feed event => exact (feed_agree hw h event).1
  | reset => exact { h with states := .fresh hw True rfl rfl }

theorem acted_sound (hw : (rule.site calculates).Twins) (h : m.Sound rule calculates)
    (actions : List Action) : (m.acted actions).Sound rule calculates := by
  induction actions generalizing m with
  | nil => exact h
  | cons action actions ih => exact ih (act_sound hw h action)

theorem said_sound (hw : (rule.site calculates).Twins) (h : m.Sound rule calculates)
    (actions : List Action) : ∀ r ∈ m.said actions, ∀ e, r = .error e →
      e.IsTakeOf rule ∨ calculates ∧ ∃ c, e = .calculation c := by
  induction actions generalizing m with
  | nil =>
    intro r hr
    simp [Matcher.said] at hr
  | cons action actions ih =>
    have hrest := ih (act_sound hw h action)
    cases action with
    | reset => exact hrest
    | feed event =>
      intro r hr e he
      rcases List.mem_cons.mp hr with rfl | hr
      · have ho := (feed_agree hw h event).2
        rw [he] at ho
        cases ho with
        | error herror => exact error_of_twin herror
      · exact hrest r hr e he

theorem stored_fits (h : m.Sound rule calculates) {name : String} {state : FragmentState}
    (hs : m.env.states.get? name = some state) :
    ∃ f ∈ rule.fragments, f.name = name ∧ f.body.Fits state := by
  by_cases hname : ∃ f ∈ rule.fragments, f.name = name
  · obtain ⟨f, hmem, rfl⟩ := hname
    obtain ⟨j, hj⟩ := List.mem_iff_getElem?.mp hmem
    have hleft : (rule.site calculates).left[(rule.site calculates).offset + j]? = some f := by
      rw [← hj, Rule.site]
      simp
    have hfits := (h.states.states hleft hj).2
    have hstate : f.stateIn m.session.env = state := by
      change (m.env.states.get? f.name).getD f.body.initial = state
      rw [hs]
      rfl
    rw [hstate] at hfits
    exact ⟨f, hmem, rfl, hfits⟩
  · have hnone : m.env.states.get? name = none := by
      refine h.states.left_others fun j x y hp hx => hname ?_
      obtain ⟨f, -, hf, -, hfx, -⟩ := hp.fragments
      exact ⟨f, List.mem_of_getElem? hf, hfx.trans hx⟩
    rw [hs] at hnone
    cases hnone

/-- Runs of a compiled rule cannot fail on names, and its stored states fit; without calculations in the
rule they can only fail on a take. -/
theorem compiled_resolved {registry : Registry} {constants : List (String × Value)} {source : String}
    (h : compile registry constants source = .ok rule) (actions : List Action) :
    (∀ r ∈ rule.matcher.said actions,
      (∀ name, r ≠ .error (.missingFragment name)) ∧ ∀ x, r ≠ .error (.extension x)) ∧
    (rule.fragments.map Fragment.name).Nodup ∧
    (∀ name state, (rule.matcher.acted actions).env.states.get? name = some state →
      ∃ f ∈ rule.fragments, f.name = name ∧ f.body.Fits state) ∧
    (∀ k e, selected registry constants source = .ok (k, e) → e.calculates = false →
      ∀ r ∈ rule.matcher.said actions, ∀ err, r = .error err → err.IsTakeOf rule) := by
  obtain ⟨k, e, hs, hr⟩ := selected_of_compiled h
  have hc : e.calculates = true → e.calculates = true := id
  obtain ⟨hw, -⟩ := Rule.twins_ofExpr hr hc
  have hsound : rule.matcher.Sound rule (e.calculates = true) := Rule.matcher_agrees hr hc
  have herrors := said_sound hw hsound actions
  refine ⟨fun r hmem => ?_, hw.left_names, fun name state hstate => ?_, fun k' e' hs' hcalc => ?_⟩
  · refine ⟨fun name he => ?_, fun x he => ?_⟩
    · exact (error_resolved (herrors r hmem _ he)).1 name rfl
    · exact (error_resolved (herrors r hmem _ he)).2 x rfl
  · exact stored_fits (acted_sound hw hsound actions) hstate
  · rw [hs] at hs'
    obtain ⟨rfl, rfl⟩ := Prod.mk.inj (Except.ok.inj hs')
    intro r hmem err he
    rcases herrors r hmem err he with htake | ⟨hcalc', -⟩
    · exact htake
    · rw [hcalc] at hcalc'
      cases hcalc'

/-- A take from behind where it ends: the rule compiles, and its one error is that of the take. -/
theorem compiled_resolved_backward_take :
    ∃ rule, compile .empty [] "take(3,1).sum().meet(>1)" = .ok rule ∧
      ∃ err, rule.matcher.said [.feed ⟨"e", .integer 1, 0⟩] = [.error err] ∧ err.IsTakeOf rule := by
  obtain ⟨rule, h, hfails⟩ := exists_of_any
    (p := fun rule => (rule.matcher.said [.feed ⟨"e", .integer 1, 0⟩]).map Except.isOk == [false])
    (r := compile .empty [] "take(3,1).sum().meet(>1)") (by decide +kernel)
  obtain ⟨⟨k, e⟩, hs, he⟩ := exists_of_any (p := fun choice => choice.2.calculates == false)
    (r := selected .empty [] "take(3,1).sum().meet(>1)") (by decide +kernel)
  obtain ⟨-, -, -, htake⟩ := compiled_resolved h [.feed ⟨"e", .integer 1, 0⟩]
  have herror := htake k e hs (beq_iff_eq.mp he)
  have hfails := beq_iff_eq.mp hfails
  simp only [Matcher.said, List.map_cons, List.map_nil, List.cons.injEq, and_true] at hfails
  refine ⟨rule, h, ?_⟩
  cases hr : (rule.matcher.feed ⟨"e", .integer 1, 0⟩).1.result with
  | ok b =>
    rw [hr] at hfails
    cases hfails
  | error err =>
    refine ⟨err, by simp only [Matcher.said, hr], herror _ ?_ err rfl⟩
    rw [Matcher.said, hr]
    exact List.mem_cons_self

end EventRules
