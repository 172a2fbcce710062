import EventRules.Proofs.Lowering.Tables
import EventRules.Proofs.Matching.Runs

/-!
# What a completed arrow forgets

An arrow that is lowered alone stands behind the fragments of its stages, and owns them all. When its
last stage holds, it goes back to its first stage and takes the states of what it owns out of the
environment, so that every fragment is in its initial state again: its own state is written back
afterwards, and no other one is out of the environment then. A matcher in which every fragment is in
its initial state answers as a fresh one.
-/

namespace EventRules
set_option autoImplicit false

open Routine Lowering

variable {m : Matcher} {rule : Rule} {name : String} {plan : Arrow.Plan}

/-! ### Lowering -/

theorem arrow_ofExpr {registry : Registry} {k : Keyed Value} {source : String}
    {stages : List (Stage Expr)} (h : Rule.ofExpr registry k source (.arrow stages) = .ok rule) :
    ∃ name plan before, rule.entry = .call name before.length ∧
      rule.fragments = before ++ [⟨name, .arrow plan⟩] ∧ plan.owned = before.map Fragment.name := by
  obtain ⟨entry, output, hrun, rfl⟩ := Rule.ofExpr_ok h
  obtain ⟨name, codes, t, -, hentry, hfragments⟩ := arrow_lowered hrun
  exact ⟨name, _, t.fragments, hentry, hfragments, rfl⟩

/-! ### Running -/

theorem resetStates_get (owned : List String) (env : Environment) :
    (∀ x ∈ owned, (owned.foldl Environment.resetState env).states.get? x = none) ∧
      ∀ x, env.states.get? x = none → (owned.foldl Environment.resetState env).states.get? x = none := by
  induction owned generalizing env with
  | nil =>
    refine ⟨?_, ?_⟩
    · intro x hx
      cases hx
    · intro x hx
      exact hx
  | cons y ys ih =>
    obtain ⟨hys, hkept⟩ := ih (env.resetState y)
    have hy : ∀ x, env.states.get? x = none ∨ x = y → (env.resetState y).states.get? x = none := by
      intro x hx
      by_cases hxy : x = y
      · rw [hxy]
        exact Keyed.get_remove_self env.states y
      · rcases hx with hx | hx
        · rw [← hx]
          exact Keyed.get_remove_of_ne env.states hxy
        · exact absurd hx hxy
    refine ⟨?_, ?_⟩
    · intro x hx
      rcases List.mem_cons.mp hx with hx | hx
      · exact hkept x (hy x (Or.inr hx))
      · exact hys x hx
    · intro x hx
      exact hkept x (hy x (Or.inl hx))

theorem arrow_run_restarts {eval : Evaluator} {frame : Frame} {own own' : Arrow.State} {s t : Session}
    (h : (Arrow.run eval plan frame).run (own, s) = (.ok true, (own', t))) :
    own' = .initial ∧ ∀ x ∈ plan.owned, t.env.states.get? x = none := by
  obtain ⟨state, _, -, h⟩ := bind_ok h
  cases hstage : plan.stages[state.pointer]? with
  | none =>
    rw [hstage] at h
    cases h
  | some stage =>
    rw [hstage] at h
    obtain ⟨held, ⟨_, u⟩, -, h⟩ := bind_ok h
    cases held with
    | false => cases h
    | true =>
      -- a stage that is not the last one answers false
      by_cases hlast : state.pointer + 1 < plan.stages.length
      · simp only [Bool.not_true, Bool.false_eq_true, if_false, hlast, if_true] at h
        cases h
      · simp only [Bool.not_true, Bool.false_eq_true, if_false, hlast] at h
        cases h
        exact ⟨rfl, (resetStates_get plan.owned u.env).1⟩

theorem fragment_restarts {eval : Evaluator} {frame : Frame} {f : Fragment} {s t : Session}
    (hbody : f.body = .arrow plan) (h : (f.run eval frame).run s = (.ok true, t)) :
    f.stateIn t.env = f.body.initial ∧
      ∀ x ∈ plan.owned, x ≠ f.name → t.env.states.get? x = none := by
  obtain ⟨_, _, -, h⟩ := bind_ok h
  obtain ⟨now, u, -, h⟩ := bind_ok h
  rw [hbody] at h
  cases hstate : (now.env.states.get? f.name).getD (FragmentBody.arrow plan).initial with
  | arrow own =>
    rw [hstate] at h
    obtain ⟨own', w, hrun, rfl⟩ := withState_ok h
    obtain ⟨rfl, howned⟩ := arrow_run_restarts hrun
    refine ⟨?_, ?_⟩
    · rw [Fragment.stateIn, hbody, Keyed.get_put_self]
      rfl
    · intro x hx hne
      rw [Keyed.get_put_of_ne _ hne]
      exact howned x hx
  | chain state =>
    rw [hstate] at h
    cases h
  | monitor state =>
    rw [hstate] at h
    cases h

/-! ### Matchers -/

/-- A matcher answers as a fresh one if no fragment remembers anything. -/
theorem results_of_initial {calculates : Prop} (hw : (rule.site calculates).Twins) (hm : m.rule = rule)
    (h : MatchersAgree (rule.site calculates) True .empty .empty m m)
    (hinitial : ∀ f ∈ rule.fragments, f.stateIn m.env = f.body.initial) (later : List Event) :
    m.results later = rule.matcher.results later := by
  have hfresh : MatchersAgree (rule.site calculates) True m.env.states .empty m rule.matcher := by
    subst hm
    refine ⟨rfl, rfl, rfl, rfl, h.entry, ?_, fun _ => rfl, fun _ => rfl⟩
    intro j f g hf hg
    obtain rfl := Rule.same_fragment hf hg
    have hl : f.stateIn m.session.env = f.body.initial := hinitial f (List.mem_of_getElem? hg)
    have hr : f.stateIn m.rule.matcher.session.env = f.body.initial := rfl
    rw [hl, hr]
    exact ⟨.refl True _, f.body.fits_initial⟩
  exact Rule.eq_of_outcomes (results_agree hw hfresh later)

/-- Once an arrow has been completed, its matcher answers as a fresh one that is fed the later events
only, whatever its stages remember. -/
theorem restarted_results {registry : Registry} {constants : List (String × Value)} {source : String}
    {k : Keyed Value} {stages : List (Stage Expr)} (h : compile registry constants source = .ok rule)
    (hselected : selected registry constants source = .ok (k, .arrow stages)) (events : List Event)
    (event : Event) (htrue : ((rule.matcher.after events).feed event).1.result = .ok true)
    (later : List Event) :
    ((rule.matcher.after events).feed event).2.results later = rule.matcher.results later := by
  have h : Rule.ofExpr registry k source (.arrow stages) = .ok rule := Rule.of_selected h hselected
  have hc : (Expr.arrow stages).calculates = true → True := fun _ => trivial
  obtain ⟨hw, -⟩ := Rule.twins_ofExpr h hc
  have hagree := (feed_agree hw (after_agrees hw (Rule.matcher_agrees h hc) events) event).1
  obtain ⟨name, plan, before, hentry, hfragments, howned⟩ := arrow_ofExpr h
  have hm : (rule.matcher.after events).rule = rule := Matcher.after_rule rule.matcher events
  have hplace : rule.fragments[before.length]? = some ⟨name, .arrow plan⟩ := by
    rw [hfragments, List.getElem?_concat_length]
  obtain ⟨eval, frame, t, hrun, henv⟩ := Matcher.fragment_of_feed (hm ▸ hentry) (hm ▸ hplace) rfl htrue
  obtain ⟨harrow, hnested⟩ := fragment_restarts rfl hrun
  refine results_of_initial hw ((Matcher.feed_rule _ event).trans hm) hagree ?_ later
  intro f hf
  rw [henv]
  rw [hfragments, List.mem_append, List.mem_singleton] at hf
  rcases hf with hf | rfl
  · have hne : f.name ≠ name := by
      have hnodup := hw.left_names
      change (rule.fragments.map Fragment.name).Nodup at hnodup
      rw [hfragments, List.map_append, List.nodup_append] at hnodup
      exact hnodup.2.2 f.name (List.mem_map_of_mem hf) name (List.mem_singleton_self name)
    have hnone := hnested f.name (howned ▸ List.mem_map_of_mem hf) hne
    rw [Fragment.stateIn, hnone]
    rfl
  · exact harrow

/-- A chain in the first stage has retained two events when the arrow is completed. Without the restart
its sum would reach the bound with the next event already. -/
theorem restarted_results_nested_sum :
    ∃ rule, compile .empty [] "{filter(>0).sum().meet(>=3)}->{==0}" = .ok rule ∧
      ((rule.matcher.after [⟨"a", .integer 1, 0⟩, ⟨"b", .integer 2, 1⟩]).feed
        ⟨"c", .integer 0, 2⟩).1.result = .ok true ∧
      (let m := ((rule.matcher.after [⟨"a", .integer 1, 0⟩, ⟨"b", .integer 2, 1⟩]).feed
          ⟨"c", .integer 0, 2⟩).2
        let later := [⟨"d", .integer 1, 3⟩, ⟨"e", .integer 0, 4⟩, ⟨"f", .integer 2, 5⟩, ⟨"g", .integer 0, 6⟩]
        m.results later = rule.matcher.results later ∧
          rule.matcher.results later = [.ok false, .ok false, .ok false, .ok true]) := by
  obtain ⟨rule, h, hrun⟩ := exists_of_any (p := fun rule => decide (
      ((rule.matcher.after [⟨"a", .integer 1, 0⟩, ⟨"b", .integer 2, 1⟩]).feed
        ⟨"c", .integer 0, 2⟩).1.result = .ok true ∧
      rule.matcher.results [⟨"d", .integer 1, 3⟩, ⟨"e", .integer 0, 4⟩, ⟨"f", .integer 2, 5⟩,
        ⟨"g", .integer 0, 6⟩] = [.ok false, .ok false, .ok false, .ok true]))
    (r := compile .empty [] "{filter(>0).sum().meet(>=3)}->{==0}") (by decide +kernel)
  obtain ⟨htrue, hfresh⟩ := of_decide_eq_true hrun
  obtain ⟨⟨k, e⟩, hs, he⟩ := exists_of_any (p := fun choice => match choice.2 with
      | .arrow _ => true
      | _ => false)
    (r := selected .empty [] "{filter(>0).sum().meet(>=3)}->{==0}") (by decide +kernel)
  cases e with
  | arrow stages => exact ⟨rule, h, htrue, restarted_results h hs _ _ htrue _, hfresh⟩
  | _ => cases he

end EventRules
