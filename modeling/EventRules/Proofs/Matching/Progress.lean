import Mathlib.Data.Nat.ModEq
import EventRules.Proofs.Lowering.Tables
import EventRules.Proofs.Matching.Embedding
import EventRules.Proofs.Matching.Runs
import EventRules.Proofs.Run.Settling

/-!
# How often an arrow is completed

If the conditions of an arrow call no fragment, each of them is lowered to what it would be as a rule
of its own, and it answers for an event whatever has been seen before. An arrow then tests each event
against the condition that is due, and goes on to the next one if that is met: it scans for the pattern
of its conditions, repeated without end, and holds whenever a round is complete. So it has been completed
as often as the pattern can be embedded in the events.
-/

namespace EventRules
set_option autoImplicit false

open Routine Lowering

/-! ### Conditions -/

/-- Whether the rule holds for the event, if it is the first one. -/
def Rule.accepts (c : Rule) (event : Event) : Bool := decide ((c.matcher.feed event).1.result = .ok true)

/-- Code answers inside an arrow what it answers as a rule of its own. -/
theorem holds_settles {c : Rule} (h : c.entry.references = []) {event : Event}
    (hanswers : ∃ b, (c.matcher.feed event).1.result = .ok b) (depth : Nat) (anchor : Option Int64)
    (fragments : List Fragment) :
    Settles (Evaluator.holds (Code.evaluate (callFragment depth)) c.entry event.value
      ⟨event, anchor, fragments, c.registry⟩) (.ok (c.accepts event)) := by
  obtain ⟨r, hr⟩ := evaluate_settles h event.value event c.registry
  have halone : evaluate c.entry event.value ⟨event, none, c.fragments, c.registry⟩ =
      c.entry.evaluate (callFragment c.fragments.length) event.value
        ⟨event, none, c.fragments, c.registry⟩ := rfl
  have hrun := hr (callFragment c.fragments.length) none c.fragments c.matcher.session
  rw [← halone] at hrun
  obtain ⟨hresult, -⟩ := Matcher.feed_run (m := c.matcher) hrun
  obtain ⟨b, hb⟩ := hanswers
  have haccepts : c.accepts event = b := by
    rw [Rule.accepts, hb]
    cases b with
    | false => rfl
    | true => rfl
  rw [haccepts, ← hb, hresult]
  exact (hr _ _ _).map

/-! ### Lowering -/

theorem Code.Twin.eq_of_bound_zero {site : Site} {c d : Code} (h : Code.Twin site 0 c d) :
    c = d ∧ c.references = [] := by
  induction h with
  | literal v => exact ⟨rfl, rfl⟩
  | subject => exact ⟨rfl, rfl⟩
  | binary _ _ _ ihl ihr =>
    obtain ⟨rfl, hl⟩ := ihl
    obtain ⟨rfl, hr⟩ := ihr
    exact ⟨rfl, by rw [Code.references, hl, hr, List.append_nil]⟩
  | not _ ih =>
    obtain ⟨rfl, h⟩ := ih
    exact ⟨rfl, h⟩
  | step up _ _ ih =>
    obtain ⟨rfl, h⟩ := ih
    exact ⟨rfl, h⟩
  | compare op _ ih =>
    obtain ⟨rfl, h⟩ := ih
    exact ⟨rfl, h⟩
  | call hj _ => exact absurd hj (Nat.not_lt_zero _)
  | filter _ => exact ⟨rfl, rfl⟩

section

variable {registry : Registry} {k : Keyed Value} {source : String}

/-- The body of a stage can be lowered as a rule of its own, and to the same code if it emits nothing. -/
theorem stages_apart {stages : List (Stage Expr)} {o u : Output} {codes : List Code}
    (h : (lowerStages ⟨k, registry, none⟩ stages).run o = (.ok codes, u)) :
    ∃ conditions : List Rule,
      List.Forall₂ (fun s c => Rule.ofExpr registry k source s.body = .ok c) stages conditions ∧
      List.Forall₂ (fun code c => c.registry = registry ∧
        (c.fragments = [] → code = c.entry ∧ code.references = [])) codes conditions := by
  induction stages generalizing o codes with
  | nil =>
    cases h
    exact ⟨[], .nil, .nil⟩
  | cons s stages ih =>
    obtain ⟨opening, body⟩ := s
    rw [lowerStages] at h
    cases hplain : body.containsArrow with
    | true =>
      rw [hplain] at h
      cases h
    | false =>
      rw [hplain] at h
      obtain ⟨code, v, hcode, h⟩ := bind_ok h
      obtain ⟨rest, w, hrest, hpure⟩ := bind_ok h
      cases hpure
      obtain ⟨conditions, hbodies, hcodes⟩ := ih hrest
      obtain ⟨entry, v', halone, -, -, -, htwin⟩ :=
        Rule.lowered_alone ⟨registry, True, o.fragments.length⟩ rfl (fun _ => trivial) rfl hcode
      let c : Rule := ⟨source, entry, v'.fragments, k, registry, v'.warnings⟩
      have hrule : Rule.ofExpr registry k source body = .ok c := by
        rw [Rule.ofExpr, halone]
        rfl
      refine ⟨c :: conditions, .cons hrule hbodies, .cons ⟨rfl, ?_⟩ hcodes⟩
      intro hfree
      have hfree : v'.fragments = [] := hfree
      have hbound : Code.Twin (Doubling.site ⟨registry, True, o.fragments.length⟩ v v') 0 code entry := by
        have hlength : (Doubling.site ⟨registry, True, o.fragments.length⟩ v v').right.length = 0 :=
          congrArg List.length hfree
        rw [← hlength]
        exact htwin
      exact hbound.eq_of_bound_zero

end

/-! ### Running -/

variable {plan : Arrow.Plan}

/-- An event leads to the next stage if it meets the condition of this one, and the last stage leads
back to the first. -/
theorem arrow_run_step {eval : Evaluator} {frame : Frame} {p : Nat} {stage : Code} {b : Bool}
    (hstage : plan.stages[p]? = some stage)
    (hheld : ∀ anchor, Settles (eval.holds stage frame.event.value { frame with anchor := anchor }) (.ok b))
    (last : Option Int64) (s : Session) :
    ∃ last' t, (Arrow.run eval plan frame).run (⟨p, last⟩, s) =
      (.ok (b && decide (p + 1 = plan.stages.length)),
        (⟨if b then (p + 1) % plan.stages.length else p, last'⟩, t)) := by
  have hp := (List.getElem?_eq_some_iff.mp hstage).1
  have hown : (Step.own : Step Arrow.State Arrow.State).run (⟨p, last⟩, s) =
      (.ok ⟨p, last⟩, (⟨p, last⟩, s)) := rfl
  have hlift := (hheld (Arrow.State.anchor ⟨p, last⟩)).lift (⟨p, last⟩ : Arrow.State) s
  rw [Arrow.run, run_bind_ok hown]
  simp only [hstage]
  rw [run_bind_ok hlift]
  cases b with
  | false => exact ⟨last, s, rfl⟩
  | true =>
    by_cases hnext : p + 1 < plan.stages.length
    · have hne : p + 1 ≠ plan.stages.length := Nat.ne_of_lt hnext
      simp only [Bool.not_true, Bool.false_eq_true, if_false, hnext, if_true, hne, decide_false,
        Bool.and_false, Nat.mod_eq_of_lt hnext]
      exact ⟨some frame.event.timestamp, s, rfl⟩
    · have heq : p + 1 = plan.stages.length := by omega
      have hlast : ¬ plan.stages.length < plan.stages.length := Nat.lt_irrefl _
      simp only [Bool.not_true, Bool.false_eq_true, if_false, if_true, heq, hlast, decide_true,
        Bool.and_true, Nat.mod_self]
      exact ⟨none, _, rfl⟩

/-- The next event is tested against the stage `p` of the arrow called `name`. -/
def Matcher.Awaits (m : Matcher) (name : String) (p : Nat) : Prop :=
  ∃ last, (m.env.states.get? name).getD (.arrow .initial) = .arrow ⟨p, last⟩

theorem arrow_fragment_run {eval : Evaluator} {frame : Frame} {f : Fragment} {own : Arrow.State}
    {s : Session} (hbody : f.body = .arrow plan)
    (hstate : (s.env.states.get? f.name).getD (.arrow .initial) = .arrow own) :
    (f.run eval frame).run s = (withState f.name .arrow own (Arrow.run eval plan frame)).run
      { s with trace := .called f.name :: s.trace } := by
  have hnote : (Run.note (.called f.name)).run s =
      (.ok (), { s with trace := .called f.name :: s.trace }) := rfl
  have hnow : ∀ t : Session, (state : Run Session).run t = (.ok t, t) := fun _ => rfl
  rw [Fragment.run, run_bind_ok hnote, run_bind_ok (hnow _), hbody]
  have hinitial : (FragmentBody.arrow plan).initial = .arrow .initial := rfl
  simp only [hinitial, hstate]

theorem fragment_run_step {eval : Evaluator} (frame : Frame) {f : Fragment} {p : Nat} {stage : Code}
    {b : Bool} (hbody : f.body = .arrow plan) (hstage : plan.stages[p]? = some stage)
    (hheld : ∀ anchor, Settles (eval.holds stage frame.event.value { frame with anchor := anchor }) (.ok b))
    {s : Session} {last : Option Int64}
    (hstate : (s.env.states.get? f.name).getD (.arrow .initial) = .arrow ⟨p, last⟩) :
    ∃ last' t, (f.run eval frame).run s = (.ok (b && decide (p + 1 = plan.stages.length)), t) ∧
      t.env.states.get? f.name =
        some (.arrow ⟨if b then (p + 1) % plan.stages.length else p, last'⟩) := by
  rw [arrow_fragment_run hbody hstate]
  obtain ⟨last', w, hrun⟩ := arrow_run_step hstage hheld last _
  obtain ⟨t, hwith, hget⟩ := withState_run f.name .arrow hrun
  exact ⟨last', t, hwith, hget⟩

/-- The rule is an arrow called `name`, and its stages are what the conditions are as rules. -/
def Rule.Sequences (rule : Rule) (name : String) (conditions : List Rule) : Prop :=
  ∃ plan index, rule.entry = .call name index ∧ rule.fragments[index]? = some ⟨name, .arrow plan⟩ ∧
    List.Forall₂ (fun code c => c.registry = rule.registry ∧ code = c.entry ∧ code.references = [])
      plan.stages conditions

theorem rounds_succ {n : Nat} (hn : 0 < n) (met : Nat) :
    (met + 1) / n = met / n + if met % n + 1 = n then 1 else 0 := by
  have hlt := Nat.mod_lt met hn
  have hmod := Nat.mod_add_mod met n 1
  have hdvd : n ∣ met + 1 ↔ met % n + 1 = n := by
    rw [Nat.dvd_iff_mod_eq_zero, ← hmod]
    constructor
    · intro hzero
      by_contra hne
      rw [Nat.mod_eq_of_lt (by omega)] at hzero
      omega
    · intro heq
      rw [heq, Nat.mod_self]
  rw [Nat.succ_div]
  simp only [hdvd]

section

variable {rule : Rule} {name : String} {conditions : List Rule} {m : Matcher}

theorem feed_step (h : rule.Sequences name conditions) (hm : m.rule = rule) {p : Nat}
    (hp : m.Awaits name p) {c : Rule} (hc : conditions[p]? = some c) {event : Event}
    (hanswers : ∃ b, (c.matcher.feed event).1.result = .ok b) :
    (m.feed event).1.result = .ok (c.accepts event && decide (p + 1 = conditions.length)) ∧
      (m.feed event).2.Awaits name (if c.accepts event then (p + 1) % conditions.length else p) := by
  subst hm
  obtain ⟨plan, index, hentry, hplace, hstages⟩ := h
  obtain ⟨last, hlast⟩ := hp
  obtain ⟨code, hcode, hregistry, rfl, hfree⟩ := getElem_of_forall₂ hstages.flip hc
  obtain ⟨depth, hfeed⟩ := Matcher.feed_called hentry hplace rfl event
  have hheld := fun anchor => holds_settles hfree hanswers depth anchor m.rule.fragments
  rw [hregistry] at hheld
  have hlength : plan.stages.length = conditions.length := hstages.length_eq
  obtain ⟨last', t, hrun, hstate⟩ :=
    fragment_run_step ⟨event, none, m.rule.fragments, m.rule.registry⟩ (f := ⟨name, .arrow plan⟩)
      (s := m.session) rfl hcode hheld hlast
  obtain ⟨hresult, hnext⟩ := hfeed _ t hrun
  rw [hlength] at hresult hstate
  refine ⟨hresult, last', ?_⟩
  rw [hnext]
  change (t.env.states.get? name).getD _ = _
  rw [hstate]
  rfl

/-- The matcher scans: it awaits the condition after those that have been met, and has held once for
each round of them. -/
theorem results_scan (h : rule.Sequences name conditions) (hpos : 0 < conditions.length)
    {events : List Event}
    (hanswers : ∀ c ∈ conditions, ∀ e ∈ events, ∃ b, (c.matcher.feed e).1.result = .ok b)
    (hm : m.rule = rule) {met : Nat} (hmet : m.Awaits name (met % conditions.length)) :
    (∀ r ∈ m.results events, ∃ b, r = .ok b) ∧
      met / conditions.length + (m.results events).count (.ok true) =
        progress (conditions.map Rule.accepts) met events / conditions.length := by
  induction events generalizing m met with
  | nil =>
    refine ⟨?_, rfl⟩
    intro r hr
    cases hr
  | cons e es ih =>
    have hlt := Nat.mod_lt met hpos
    obtain ⟨c, hc⟩ : ∃ c, conditions[met % conditions.length]? = some c :=
      ⟨_, List.getElem?_eq_getElem hlt⟩
    have hmem := List.mem_of_getElem? hc
    have hdue : conditionAt (conditions.map Rule.accepts) met e = c.accepts e := by
      rw [conditionAt, List.length_map, List.getElem?_map, hc]
      rfl
    obtain ⟨hresult, hnext⟩ := feed_step h hm hmet hc (hanswers c hmem e List.mem_cons_self)
    have hrest : ∀ c ∈ conditions, ∀ e ∈ es, ∃ b, (c.matcher.feed e).1.result = .ok b :=
      fun c hc e he => hanswers c hc e (List.mem_cons_of_mem _ he)
    have hround := rounds_succ hpos met
    rw [Nat.mod_add_mod] at hnext
    rw [Matcher.results, progress, hdue, hresult]
    cases hb : c.accepts e with
    | false =>
      rw [hb] at hnext
      obtain ⟨hok, hcount⟩ := ih hrest ((Matcher.feed_rule m e).trans hm) hnext
      refine ⟨?_, ?_⟩
      · intro r hr
        rcases List.mem_cons.mp hr with rfl | hr
        · exact ⟨_, rfl⟩
        · exact hok r hr
      · rw [Bool.false_and, List.count_cons_of_ne (by simp)]
        exact hcount
    | true =>
      rw [hb] at hnext
      obtain ⟨hok, hcount⟩ := ih hrest ((Matcher.feed_rule m e).trans hm) hnext
      refine ⟨?_, ?_⟩
      · intro r hr
        rcases List.mem_cons.mp hr with rfl | hr
        · exact ⟨_, rfl⟩
        · exact hok r hr
      · rw [if_pos rfl, ← hcount, hround, Bool.true_and]
        by_cases hlast : met % conditions.length + 1 = conditions.length
        · rw [if_pos hlast, decide_eq_true hlast, List.count_cons_self]
          omega
        · rw [if_neg hlast, decide_eq_false hlast, List.count_cons_of_ne (by simp)]
          omega

end

theorem results_take (m : Matcher) (events : List Event) (n : Nat) :
    (m.results events).take n = m.results (events.take n) := by
  induction events generalizing m n with
  | nil => cases n <;> rfl
  | cons e es ih =>
    cases n with
    | zero => rfl
    | succ n =>
      rw [Matcher.results, List.take_succ_cons, List.take_succ_cons, Matcher.results, ih]

theorem sequences_ofExpr {registry : Registry} {k : Keyed Value} {source : String} {rule : Rule}
    {stages : List (Stage Expr)} (h : Rule.ofExpr registry k source (.arrow stages) = .ok rule) :
    ∃ conditions : List Rule,
      List.Forall₂ (fun s c => Rule.ofExpr registry k source s.body = .ok c) stages conditions ∧
      ((∀ c ∈ conditions, c.fragments = []) → ∃ name, rule.Sequences name conditions) := by
  obtain ⟨entry, output, hrun, rfl⟩ := Rule.ofExpr_ok h
  obtain ⟨name, codes, t, hcodes, hentry, hfragments⟩ := arrow_lowered hrun
  obtain ⟨conditions, hbodies, hapart⟩ := stages_apart hcodes
  refine ⟨conditions, hbodies, ?_⟩
  intro hfree
  refine ⟨name, ⟨codes, t.namesSince Output.empty.fragments.length⟩, t.fragments.length, hentry, ?_, ?_⟩
  · change output.fragments[t.fragments.length]? = _
    rw [hfragments, List.getElem?_concat_length]
  · clear hbodies hcodes hfragments
    change List.Forall₂ _ codes conditions
    induction hapart with
    | nil => exact .nil
    | cons hfirst _ ih =>
      have hcode := hfirst.2 (hfree _ List.mem_cons_self)
      exact .cons ⟨hfirst.1, hcode⟩ (ih fun c hc => hfree c (List.mem_cons_of_mem _ hc))

/-- An arrow whose conditions call no fragment and do not fail is completed, within any first events, as
often as the pattern of its conditions can be embedded in them one time after the other. -/
theorem completions_greatest {registry : Registry} {constants : List (String × Value)} {source : String}
    {rule : Rule} {k : Keyed Value} {stages : List (Stage Expr)}
    (h : compile registry constants source = .ok rule)
    (hselected : selected registry constants source = .ok (k, .arrow stages)) (hstages : stages ≠ []) :
    ∃ conditions : List Rule,
      List.Forall₂ (fun s c => Rule.ofExpr registry k source s.body = .ok c) stages conditions ∧
      ((∀ c ∈ conditions, c.fragments = []) → ∀ events : List Event,
        (∀ c ∈ conditions, ∀ e ∈ events, ∃ b, (c.matcher.feed e).1.result = .ok b) →
        ∀ n, (∀ r ∈ (rule.matcher.results events).take n, ∃ b, r = .ok b) ∧
          IsGreatest
            {rounds | Embeds (List.replicate rounds (conditions.map Rule.accepts)).flatten (events.take n)}
            (((rule.matcher.results events).take n).count (.ok true))) := by
  obtain ⟨conditions, hbodies, hsequences⟩ := sequences_ofExpr (Rule.of_selected h hselected)
  refine ⟨conditions, hbodies, ?_⟩
  intro hfree events hanswers n
  obtain ⟨name, hsequence⟩ := hsequences hfree
  have hpos : 0 < conditions.length := by
    rw [← hbodies.length_eq]
    exact List.length_pos_iff.mpr hstages
  have hpattern : conditions.map Rule.accepts ≠ [] := by
    rw [Ne, List.map_eq_nil_iff]
    exact List.length_pos_iff.mp hpos
  have hfirst : rule.matcher.Awaits name (0 % conditions.length) := by
    rw [Nat.zero_mod]
    exact ⟨none, rfl⟩
  have htaken : ∀ c ∈ conditions, ∀ e ∈ events.take n, ∃ b, (c.matcher.feed e).1.result = .ok b :=
    fun c hc e he => hanswers c hc e (List.mem_of_mem_take he)
  obtain ⟨hok, hcount⟩ := results_scan hsequence hpos htaken rfl hfirst
  rw [results_take]
  refine ⟨hok, ?_⟩
  have hgreatest := rounds_greatest hpattern (events.take n)
  rw [List.length_map, ← hcount, Nat.zero_div, Nat.zero_add] at hgreatest
  exact hgreatest

/-- In the first round an event is passed over, and the last event completes the second one. -/
def twoRounds : List Event :=
  [⟨"a", .integer 0, 0⟩, ⟨"b", .integer 1, 1⟩, ⟨"c", .integer 2, 2⟩, ⟨"d", .integer 0, 3⟩,
    ⟨"e", .integer 3, 4⟩]

theorem completions_greatest_twoRounds :
    ∃ rule, compile .empty [] "{==0}->{>1}" = .ok rule ∧
      rule.matcher.results twoRounds = [.ok false, .ok false, .ok true, .ok false, .ok true] ∧
      ∃ conditions : List Rule, conditions.length = 2 ∧
        IsGreatest {rounds | Embeds (List.replicate rounds (conditions.map Rule.accepts)).flatten twoRounds}
          2 := by
  obtain ⟨rule, h, hresults⟩ := exists_of_any (p := fun rule =>
      rule.matcher.results twoRounds == [.ok false, .ok false, .ok true, .ok false, .ok true])
    (r := compile .empty [] "{==0}->{>1}") (by decide +kernel)
  have hresults := beq_iff_eq.mp hresults
  obtain ⟨⟨k, e⟩, hs, he⟩ := exists_of_any (p := fun choice => match choice.2 with
      | .arrow stages => stages.length == 2 && stages.all fun s =>
        match Rule.ofExpr .empty choice.1 "{==0}->{>1}" s.body with
        | .ok c =>
          c.fragments.isEmpty && twoRounds.all fun event => (c.matcher.feed event).1.result.isOk
        | .error _ => false
      | _ => false)
    (r := selected .empty [] "{==0}->{>1}") (by decide +kernel)
  cases e with
  | arrow stages =>
    simp only [Bool.and_eq_true, beq_iff_eq, List.all_eq_true] at he
    obtain ⟨hlength, hconditions⟩ := he
    have hstages : stages ≠ [] := by
      rintro rfl
      cases hlength
    obtain ⟨conditions, hbodies, hgreatest⟩ := completions_greatest h hs hstages
    have heach : ∀ c ∈ conditions, c.fragments = [] ∧
        ∀ event ∈ twoRounds, ∃ b, (c.matcher.feed event).1.result = .ok b := by
      intro c hc
      obtain ⟨i, hi, rfl⟩ := List.mem_iff_getElem.mp hc
      obtain ⟨s, hs, hbody⟩ := getElem_of_forall₂ hbodies.flip (List.getElem?_eq_getElem hi)
      have htested := hconditions s (List.mem_of_getElem? hs)
      rw [hbody] at htested
      simp only [Bool.and_eq_true, List.isEmpty_iff, List.all_eq_true] at htested
      refine ⟨htested.1, ?_⟩
      intro event hevent
      have hok := htested.2 event hevent
      cases hr : (conditions[i].matcher.feed event).1.result with
      | error err =>
        rw [hr] at hok
        cases hok
      | ok b => exact ⟨b, rfl⟩
    obtain ⟨-, hrounds⟩ := hgreatest (fun c hc => (heach c hc).1) twoRounds (fun c hc => (heach c hc).2) 5
    rw [hresults] at hrounds
    exact ⟨rule, h, hresults, conditions, hbodies.length_eq.symm.trans hlength, hrounds⟩
  | _ => cases he

end EventRules
