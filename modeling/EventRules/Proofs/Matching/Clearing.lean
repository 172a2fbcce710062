import EventRules.Proofs.Matching.Runs

/-!
# What a clearing chain forgets

A chain that ends with `clear` and holds forgets the events that it retains itself. From then on a
matcher of it answers as one that has seen no event but has the states of the fragments inside the
conditions of the chain, which `clear` leaves alone; so it answers as a fresh one if those are in their
initial states, and in particular if there are none.
-/

namespace EventRules
set_option autoImplicit false

open Routine Lowering

/-! ### Lowering -/

namespace Lowering

variable {scope : Scope} {o u : Output}

theorem element_clear {c : OperandCall} (hname : c.name.text = "clear") {e : Element}
    (h : (element scope c).run o = (.ok e, u)) : e = .clear := by
  rw [element, hname] at h
  cases hstrict : c.strict with
  | true =>
    rw [hstrict] at h
    cases h
  | false =>
    rw [hstrict] at h
    simp only [Bool.false_eq_true, if_false, plain] at h
    split at h
    · cases h
      rfl
    · cases h

theorem push_clears {a b : Draft} {name : Token} {e : Element} (h : a.push name e = .ok b) :
    b.clears = (a.record e).clears := by
  rw [Draft.push] at h
  cases hbefore : a.samplerBefore e with
  | some existing =>
    rw [hbefore] at h
    cases h
  | none =>
    rw [hbefore] at h
    dsimp only at h
    generalize (if a.lacksFilter e = true then Phase.filter else a.phase) = phase at h
    cases haccepts : phase.accepts e.phase with
    | true =>
      rw [haccepts] at h
      cases h
      rfl
    | false =>
      rw [haccepts] at h
      cases h

theorem pipeline_clears {calls : List OperandCall} {a b : Draft}
    (hlast : calls.getLast?.map (fun c => c.name.text) = some "clear")
    (h : (pipeline scope a calls).run o = (.ok b, u)) : b.clears = true := by
  induction calls generalizing a o with
  | nil => cases hlast
  | cons c cs ih =>
    obtain ⟨e, t, he, h⟩ := bind_ok h
    have hpush : ∀ {t : Output}, (ofExcept (a.push c.name e) >>= fun d => pipeline scope d cs).run t =
        (.ok b, u) → b.clears = true := by
      intro t h
      obtain ⟨d, t', hd, h⟩ := bind_ok h
      have hpushed : a.push c.name e = .ok d := congrArg Prod.fst hd
      cases cs with
      | nil =>
        have hname : c.name.text = "clear" := Option.some.inj hlast
        cases h
        rw [push_clears hpushed, element_clear hname he]
        rfl
      | cons c' cs => exact ih hlast h
    cases hlacks : a.lacksFilter e with
    | true =>
      rw [hlacks] at h
      obtain ⟨_, t', -, h⟩ := bind_ok h
      exact hpush h
    | false =>
      rw [hlacks] at h
      exact hpush h

theorem chainPlan_clears {calls : List OperandCall} {plan : Chain.Plan}
    (hlast : calls.getLast?.map (fun c => c.name.text) = some "clear")
    (h : (chainPlan scope calls).run o = (.ok plan, u)) : plan.clears = true := by
  obtain ⟨d, t, hd, h⟩ := bind_ok h
  have hclears := pipeline_clears hlast hd
  have hplan : d.plan? = some plan := by
    cases hp : d.plan? with
    | none =>
      rw [hp] at h
      cases h
    | some p =>
      rw [hp] at h
      cases h
      rfl
  rw [Draft.plan?] at hplan
  split at hplan
  · cases hplan
    exact hclears
  · cases hplan

end Lowering

/-! ### Running -/

variable {m : Matcher} {rule : Rule} {name : String} {plan : Chain.Plan}

theorem chain_run_clears {eval : Evaluator} {frame : Frame} {own own' : Chain.State} {s t : Session}
    (hclears : plan.clears = true)
    (h : (Chain.run eval name plan frame).run (own, s) = (.ok true, (own', t))) :
    own'.retained = [] := by
  obtain ⟨_, _, -, h⟩ := bind_ok h
  obtain ⟨admitted, _, -, h⟩ := bind_ok h
  obtain ⟨before, _, -, h⟩ := bind_ok h
  generalize Chain.retain plan.sampler before.retained frame.event admitted = kept at h
  obtain ⟨retained, handed⟩ := kept
  obtain ⟨_, _, -, h⟩ := bind_ok h
  generalize handed.bind (Chain.takeFrom plan.take) = batch? at h
  cases batch? with
  | none => cases h
  | some batch =>
    obtain ⟨value, _, -, h⟩ := bind_ok h
    obtain ⟨verdict, _, -, h⟩ := bind_ok h
    obtain ⟨_, _, -, h⟩ := bind_ok h
    -- only a chain that holds comes to its end here, and one that holds clears
    cases verdict with
    | false => cases hclears ▸ h
    | true =>
      rw [hclears] at h
      cases h
      rfl

theorem fragment_clears {eval : Evaluator} {frame : Frame} {f : Fragment} {s t : Session}
    (hbody : f.body = .chain plan) (hclears : plan.clears = true)
    (h : (f.run eval frame).run s = (.ok true, t)) :
    ∃ emitted, t.env.states.get? f.name = some (.chain ⟨[], emitted⟩) := by
  obtain ⟨_, _, -, h⟩ := bind_ok h
  obtain ⟨now, u, -, h⟩ := bind_ok h
  rw [hbody] at h
  cases hstate : (now.env.states.get? f.name).getD (FragmentBody.chain plan).initial with
  | chain own =>
    rw [hstate] at h
    obtain ⟨own', w, hchain, rfl⟩ := withState_ok h
    have hretained := chain_run_clears hclears hchain
    refine ⟨own'.emitted, ?_⟩
    rw [Keyed.get_put_self, ← hretained]
  | arrow state =>
    rw [hstate] at h
    cases h
  | monitor state =>
    rw [hstate] at h
    cases h

theorem feed_clears {index : Nat} (hentry : m.rule.entry = .call name index)
    (hf : m.rule.fragments[index]? = some ⟨name, .chain plan⟩) (hclears : plan.clears = true)
    {event : Event} (h : (m.feed event).1.result = .ok true) :
    ∃ emitted, (m.feed event).2.env.states.get? name = some (.chain ⟨[], emitted⟩) := by
  obtain ⟨eval, frame, t, hrun, henv⟩ := Matcher.fragment_of_feed hentry hf rfl h
  rw [henv]
  exact fragment_clears rfl hclears hrun

/-- A matcher that begins with these states. -/
def Rule.resumed (rule : Rule) (states : Keyed FragmentState) : Matcher := ⟨rule, ⟨rule.constants, states⟩⟩

/-- Two matchers of one rule, of which neither retains anything in the chain called `name`. -/
theorem cleared_agree {calculates : Prop} {states : Keyed FragmentState} {emitted : List Event}
    (hm : m.rule = rule) (h : MatchersAgree (rule.site calculates) True .empty .empty m m)
    (hleft : m.env.states.get? name = some (.chain ⟨[], emitted⟩)) (hright : states.get? name = none)
    (hchain : ∀ f ∈ rule.fragments, f.name = name → ∃ plan, f.body = .chain plan)
    (hnested : ∀ f ∈ rule.fragments, f.name ≠ name →
      f.stateIn m.env = f.stateIn ⟨rule.constants, states⟩) :
    MatchersAgree (rule.site calculates) False m.env.states states m (rule.resumed states) := by
  subst hm
  refine ⟨rfl, rfl, rfl, rfl, h.entry, ?_⟩
  constructor
  · intro j f g hf hg
    -- the cleared chain is similar to a fresh one only up to what it has emitted last
    obtain ⟨-, hfits⟩ := h.states.states hf hg
    obtain rfl := Rule.same_fragment hf hg
    have hmem : f ∈ m.rule.fragments := List.mem_of_getElem? hg
    by_cases hname : f.name = name
    · obtain ⟨plan, hbody⟩ := hchain f hmem hname
      have hl : f.stateIn m.session.env = .chain ⟨[], emitted⟩ := by
        change (m.env.states.get? f.name).getD f.body.initial = _
        rw [hname, hleft]
        rfl
      have hr : f.stateIn (m.rule.resumed states).session.env = .chain .initial := by
        change (states.get? f.name).getD f.body.initial = _
        rw [hname, hright, hbody]
        rfl
      rw [hl, hr, hbody]
      exact ⟨.chain ⟨rfl, False.elim⟩, trivial⟩
    · have hsame : f.stateIn m.session.env = f.stateIn (m.rule.resumed states).session.env :=
        hnested f hmem hname
      rw [← hsame]
      exact ⟨.refl False _, hfits⟩
  · exact fun _ => rfl
  · exact fun _ => rfl

theorem clearing_chain_ofExpr {registry : Registry} {k : Keyed Value} {source : String}
    {calls : List (Call Expr)} (h : Rule.ofExpr registry k source (.chain calls) = .ok rule)
    (hlast : calls.getLast?.map (fun c => c.name.text) = some "clear") :
    ∃ name plan, plan.clears = true ∧ rule.entry = .call name (rule.fragments.length - 1) ∧
      rule.fragments[rule.fragments.length - 1]? = some ⟨name, .chain plan⟩ := by
  obtain ⟨name, plan, ⟨o, t, hplan⟩, hentry, hchain⟩ := Rule.chain_ofExpr h
  rw [operandCalls_eq_map] at hplan
  refine ⟨name, plan, chainPlan_clears ?_ hplan, hentry, hchain⟩
  rw [List.getLast?_map, Option.map_map]
  exact hlast

/-- After a chain that ends with `clear` has held, its matcher answers as one that begins with the states
of the nested fragments only, and as a fresh one if those are the initial ones. -/
theorem cleared_results {registry : Registry} {constants : List (String × Value)} {source : String}
    {k : Keyed Value} {calls : List (Call Expr)} (h : compile registry constants source = .ok rule)
    (hselected : selected registry constants source = .ok (k, .chain calls))
    (hlast : calls.getLast?.map (fun c => c.name.text) = some "clear") (events : List Event)
    (event : Event)
    (htrue : ((rule.matcher.after events).feed event).1.result = .ok true) :
    ∃ name, rule.entry = .call name (rule.fragments.length - 1) ∧
      ∀ later, let m := ((rule.matcher.after events).feed event).2
        m.results later = (rule.resumed (m.env.states.remove name)).results later ∧
        ((∀ f ∈ rule.fragments, f.name ≠ name → f.stateIn m.env = f.body.initial) →
          m.results later = rule.matcher.results later) := by
  have h : Rule.ofExpr registry k source (.chain calls) = .ok rule := Rule.of_selected h hselected
  have hc : (Expr.chain calls).calculates = true → True := fun _ => trivial
  obtain ⟨hw, -⟩ := Rule.twins_ofExpr h hc
  have hagree := (feed_agree hw (after_agrees hw (Rule.matcher_agrees h hc) events) event).1
  obtain ⟨name, plan, hclears, hentry, hchain⟩ := clearing_chain_ofExpr h hlast
  have hm : (rule.matcher.after events).rule = rule := Matcher.after_rule rule.matcher events
  obtain ⟨emitted, hstate⟩ : ∃ emitted, ((rule.matcher.after events).feed event).2.env.states.get? name =
      some (.chain ⟨[], emitted⟩) := by
    rw [← hm] at hentry hchain
    exact feed_clears hentry hchain hclears htrue
  rw [← Matcher.feed_rule _ event] at hm
  generalize ((rule.matcher.after events).feed event).2 = m at hagree hstate hm ⊢
  have hnamed : ∀ f ∈ rule.fragments, f.name = name → ∃ plan, f.body = .chain plan := by
    intro f hf hname
    obtain ⟨j, hj⟩ := List.mem_iff_getElem?.mp hf
    obtain rfl := Site.index_eq_of_name hw.left_names hj hchain hname
    obtain rfl := Option.some.inj (hj.symm.trans hchain)
    exact ⟨plan, rfl⟩
  refine ⟨name, hentry, fun later => ⟨?_, fun hinitial => ?_⟩⟩
  · have hkept := cleared_agree hm hagree hstate (Keyed.get_remove_self m.env.states name) hnamed
      fun f _ hname => by rw [Fragment.stateIn, Fragment.stateIn, Keyed.get_remove_of_ne _ hname]
    exact Rule.eq_of_outcomes (results_agree hw hkept later)
  · have hfresh := cleared_agree hm hagree hstate (Keyed.get_empty name) hnamed hinitial
    exact Rule.eq_of_outcomes (results_agree hw hfresh later)

/-- The counter inside the filter outlives the `clear`: one more event of it holds, and it would not with
a fresh matcher. -/
theorem cleared_results_counting_filter :
    ∃ rule, compile .empty [] "filter(==1||count(==2,2)).count().meet(>=1).clear()" = .ok rule ∧
      ((rule.matcher.after [⟨"a", .integer 2, 0⟩]).feed ⟨"b", .integer 1, 1⟩).1.result = .ok true ∧
      (∃ name, ((rule.matcher.after [⟨"a", .integer 2, 0⟩]).feed ⟨"b", .integer 1, 1⟩).2.results
          [⟨"c", .integer 2, 2⟩] =
        (rule.resumed (((rule.matcher.after [⟨"a", .integer 2, 0⟩]).feed
          ⟨"b", .integer 1, 1⟩).2.env.states.remove name)).results [⟨"c", .integer 2, 2⟩]) ∧
      ((rule.matcher.after [⟨"a", .integer 2, 0⟩]).feed ⟨"b", .integer 1, 1⟩).2.results
        [⟨"c", .integer 2, 2⟩] = [.ok true] ∧
      rule.matcher.results [⟨"c", .integer 2, 2⟩] = [.ok false] := by
  obtain ⟨rule, h, hrun⟩ := exists_of_any (p := fun rule => decide (
      ((rule.matcher.after [⟨"a", .integer 2, 0⟩]).feed ⟨"b", .integer 1, 1⟩).1.result = .ok true ∧
      ((rule.matcher.after [⟨"a", .integer 2, 0⟩]).feed ⟨"b", .integer 1, 1⟩).2.results
        [⟨"c", .integer 2, 2⟩] = [.ok true] ∧
      rule.matcher.results [⟨"c", .integer 2, 2⟩] = [.ok false]))
    (r := compile .empty [] "filter(==1||count(==2,2)).count().meet(>=1).clear()") (by decide +kernel)
  obtain ⟨htrue, hlater, hfresh⟩ := of_decide_eq_true hrun
  obtain ⟨⟨k, e⟩, hs, he⟩ := exists_of_any (p := fun choice => match choice.2 with
      | .chain calls => calls.getLast?.map (fun c => c.name.text) == some "clear"
      | _ => false)
    (r := selected .empty [] "filter(==1||count(==2,2)).count().meet(>=1).clear()") (by decide +kernel)
  cases e with
  | chain calls =>
    obtain ⟨name, -, hresults⟩ := cleared_results h hs (beq_iff_eq.mp he) _ _ htrue
    exact ⟨rule, h, htrue, ⟨name, (hresults _).1⟩, hlater, hfresh⟩
  | _ => cases he

end EventRules
