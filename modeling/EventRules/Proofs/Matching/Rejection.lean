import EventRules.Proofs.Chain.Sliding
import EventRules.Proofs.Matching.Runs
import EventRules.Proofs.Run.Settling

/-!
# Events that a chain does not let in

Such an event makes a chain judge again what it retains, and `clear` could make it forget that. But a
chain that would hold for what it retains has just held for it, and has forgotten it then. So an event that
is not let in leaves the retained events as they are, and nothing later depends on it, if the conditions
behind the filters look at the retained events only.
-/

namespace EventRules
set_option autoImplicit false

open Routine Lowering

/-! ### Turns -/

namespace Chain

/-- What a chain hands on without a new event it has just handed on with one. -/
theorem retain_handedAgain {sampler : Option Sampler} {retained again : List Event} {event : Event}
    (h : handedAgain sampler (retain sampler retained event true).1 = some again) :
    (retain sampler retained event true).2 = some again := by
  rcases sampler with _ | ⟨_ | _⟩ | ⟨_ | _⟩
  case none => exact h
  case some.limit.count => exact h
  case some.limit.duration => exact h
  case some.window.count => cases h
  case some.window.duration => cases h

/-- What a chain answers to an event and what it retains then, from whether the event is let in and from
what is judged of the events that are handed on. -/
def turn (plan : Plan) (judged : List Event → Except RunError Bool) (retained : List Event)
    (event : Event) (admitted : Except RunError Bool) : Except RunError Bool × List Event :=
  match admitted with
  | .error e => (.error e, retained)
  | .ok a =>
    let (kept, handed) := retain plan.sampler retained event a
    match handed.bind (takeFrom plan.take) with
    | none => (.ok false, kept)
    | some batch =>
      match judged batch with
      | .error e => (.error e, kept)
      | .ok holds => (.ok holds, if holds && plan.clears then [] else kept)

/-- Judging the retained events again does not make the chain forget any. -/
def Idle (plan : Plan) (judged : List Event → Except RunError Bool) (retained : List Event) : Prop :=
  ∀ batch, (handedAgain plan.sampler retained).bind (takeFrom plan.take) = some batch →
    judged batch = .ok true → plan.clears = true → retained = []

section

variable {plan : Plan} {judged : List Event → Except RunError Bool} {retained : List Event} {event : Event}
  {admitted : Except RunError Bool}

theorem idle_nil : Idle plan judged [] := fun _ _ _ _ => rfl

/-- An event that is not let in changes nothing. -/
theorem turn_of_rejected (h : Idle plan judged retained) (ha : admitted ≠ .ok true) :
    (turn plan judged retained event admitted).2 = retained := by
  rw [turn.eq_def]
  cases admitted with
  | error e => rfl
  | ok a =>
    cases a with
    | true => exact absurd rfl ha
    | false =>
      simp only [retain_rejected]
      split
      · rfl
      · next batch hbatch =>
        split
        · rfl
        · next holds hjudged =>
          cases holds with
          | false => rfl
          | true =>
            cases hclears : plan.clears with
            | false => rfl
            | true => exact (h batch hbatch hjudged hclears).symm

theorem turn_idle (h : Idle plan judged retained) :
    Idle plan judged (turn plan judged retained event admitted).2 := by
  by_cases ha : admitted = .ok true
  · subst ha
    have hagain : ∀ batch,
        (handedAgain plan.sampler (retain plan.sampler retained event true).1).bind (takeFrom plan.take) =
            some batch →
          (retain plan.sampler retained event true).2.bind (takeFrom plan.take) = some batch := by
      intro batch hbatch
      obtain ⟨again, hhanded, htaken⟩ := Option.bind_eq_some_iff.mp hbatch
      rw [retain_handedAgain hhanded]
      exact htaken
    rw [turn.eq_def]
    dsimp only
    split
    · next hnone =>
      intro batch hbatch
      cases hnone.symm.trans (hagain batch hbatch)
    · next batch hsome =>
      -- the verdict on this batch is the one that judging again comes to
      have hverdict : ∀ batch', (handedAgain plan.sampler (retain plan.sampler retained event true).1).bind
          (takeFrom plan.take) = some batch' → batch' = batch :=
        fun batch' hbatch => Option.some.inj ((hagain batch' hbatch).symm.trans hsome)
      split
      · next hjudged =>
        intro batch' hbatch htrue
        rw [hverdict batch' hbatch, hjudged] at htrue
        cases htrue
      · next holds hjudged =>
        intro batch' hbatch htrue hclears
        dsimp only at hbatch ⊢
        split at hbatch
        · next hforgets => rw [if_pos hforgets]
        · next hkeeps =>
          rw [hverdict batch' hbatch, hjudged] at htrue
          cases htrue
          rw [hclears] at hkeeps
          exact absurd rfl hkeeps
  · rw [turn_of_rejected h ha]
    exact h

end

end Chain

/-! ### Running -/

variable {plan : Chain.Plan} {name : String}

theorem chain_run_turn {eval : Evaluator} {frame : Frame} {checked : Except RunError Unit}
    {admitted : Except RunError Bool} {reduced : List Event → Except RunError Value}
    {verdict : Value → Except RunError Bool} (hchecked : Settles (Chain.checkTake name plan.take) checked)
    (hadmitted : Settles (Chain.admits eval frame plan.filters) admitted)
    (hreduced : ∀ batch, Settles (Chain.aggregate eval plan.aggregation batch frame) (reduced batch))
    (hverdict : ∀ v, Settles (Chain.judge eval frame plan.verdict v) (verdict v)) (own : Chain.State)
    (s : Session) :
    ∃ emitted t, (Chain.run eval name plan frame).run (own, s) =
      let after := Chain.turn plan (fun batch => (reduced batch).bind verdict) own.retained frame.event
        (checked.bind fun _ => admitted)
      (after.1, (⟨after.2, emitted⟩, t)) := by
  have hcheck := hchecked.lift own s
  have hadmit := hadmitted.lift own s
  have hown : (Step.own : Step Chain.State Chain.State).run (own, s) = (.ok own, (own, s)) := rfl
  have hset : ∀ own' : Chain.State, (Step.setOwn own').run (own, s) = (.ok (), (own', s)) := fun _ => rfl
  rw [Chain.run]
  cases checked with
  | error e =>
    rw [run_bind_error hcheck]
    exact ⟨own.emitted, s, rfl⟩
  | ok _ =>
    rw [run_bind_ok hcheck]
    cases admitted with
    | error e =>
      rw [run_bind_error hadmit]
      exact ⟨own.emitted, s, rfl⟩
    | ok a =>
      rw [run_bind_ok hadmit, run_bind_ok hown]
      simp only [Chain.turn, Except.bind]
      generalize Chain.retain plan.sampler own.retained frame.event a = kept
      obtain ⟨kept, handed⟩ := kept
      dsimp only
      rw [run_bind_ok (hset _)]
      cases handed.bind (Chain.takeFrom plan.take) with
      | none => exact ⟨_, s, rfl⟩
      | some batch =>
        have hreduce := (hreduced batch).lift (⟨kept, handed.getD []⟩ : Chain.State) s
        dsimp only
        cases hvalue : reduced batch with
        | error e =>
          rw [hvalue] at hreduce
          rw [run_bind_error hreduce]
          exact ⟨_, s, rfl⟩
        | ok v =>
          rw [hvalue] at hreduce
          have hjudge := (hverdict v).lift (⟨kept, handed.getD []⟩ : Chain.State) s
          rw [run_bind_ok hreduce]
          cases hholds : verdict v with
          | error e =>
            rw [hholds] at hjudge
            rw [run_bind_error hjudge]
            simp only [hholds]
            exact ⟨_, s, rfl⟩
          | ok holds =>
            rw [hholds] at hjudge
            rw [run_bind_ok hjudge]
            simp only [hholds]
            cases hclears : holds && plan.clears with
            | false => exact ⟨_, _, rfl⟩
            | true => exact ⟨_, _, rfl⟩

theorem chain_fragment_run {eval : Evaluator} {frame : Frame} {f : Fragment} {own : Chain.State}
    {s : Session} (hbody : f.body = .chain plan)
    (hstate : (s.env.states.get? f.name).getD (.chain .initial) = .chain own) :
    (f.run eval frame).run s = (withState f.name .chain own (Chain.run eval f.name plan frame)).run
      { s with trace := .called f.name :: s.trace } := by
  have hnote : (Run.note (.called f.name)).run s =
      (.ok (), { s with trace := .called f.name :: s.trace }) := rfl
  have hnow : ∀ t : Session, (state : Run Session).run t = (.ok t, t) := fun _ => rfl
  rw [Fragment.run, run_bind_ok hnote, run_bind_ok (hnow _), hbody]
  have hinitial : (FragmentBody.chain plan).initial = .chain .initial := rfl
  simp only [hinitial, hstate]

/-- The chain called `name` retains these events. -/
def Matcher.Retains (m : Matcher) (name : String) (retained : List Event) : Prop :=
  ∃ emitted, (m.env.states.get? name).getD (.chain .initial) = .chain ⟨retained, emitted⟩

/-- The filters of the chain do not let the event in. -/
def Rule.Rejects (rule : Rule) (plan : Chain.Plan) (event : Event) : Prop :=
  ((Chain.admits evaluate ⟨event, none, rule.fragments, rule.registry⟩ plan.filters).run
    rule.matcher.session).1 = .ok false

instance (rule : Rule) (plan : Chain.Plan) (event : Event) : Decidable (rule.Rejects plan event) :=
  inferInstanceAs (Decidable (_ = _))

/-- The matchers of the rule take the turns of this chain, whatever they have seen before. -/
structure Rule.Turns (rule : Rule) (name : String) (plan : Chain.Plan)
    (judged : List Event → Except RunError Bool) (admitted : Event → Except RunError Bool) : Prop where
  feed : ∀ {m : Matcher} {retained : List Event} (event : Event), m.rule = rule → m.Retains name retained →
    let after := Chain.turn plan judged retained event (admitted event)
    (m.feed event).1.result = after.1 ∧ (m.feed event).2.Retains name after.2
  rejected : ∀ event, rule.Rejects plan event → admitted event ≠ .ok true

/-- The filters of the host that the conditions behind the filters ask. -/
def Chain.Plan.askedBehind (plan : Chain.Plan) : List String :=
  plan.aggregation.asked ++ plan.verdict.asked

theorem Rule.turns_of_chain {rule : Rule} {index : Nat} (hentry : rule.entry = .call name index)
    (hchain : rule.fragments[index]? = some ⟨name, .chain plan⟩) (hcalls : plan.references = [])
    (hasked : plan.askedBehind = []) : ∃ judged admitted, rule.Turns name plan judged admitted := by
  rw [Chain.Plan.references, List.append_eq_nil_iff, List.append_eq_nil_iff, List.flatMap_eq_nil_iff]
    at hcalls
  rw [Chain.Plan.askedBehind, List.append_eq_nil_iff] at hasked
  obtain ⟨⟨hfilters, haggregation⟩, hverdict⟩ := hcalls
  obtain ⟨checked, hchecked⟩ := Chain.checkTake_settles name plan.take
  choose admitted hadmitted using fun event => Chain.admits_settles hfilters event rule.registry
  obtain ⟨reduced, hreduced⟩ := Chain.aggregate_settles haggregation hasked.1 rule.registry
  obtain ⟨verdict, hverdict⟩ := Chain.judge_settles hverdict hasked.2 rule.registry
  refine ⟨fun batch => (reduced batch).bind verdict, fun event => checked.bind fun _ => admitted event,
    ?_, ?_⟩
  · rintro m retained event rfl ⟨emitted, hstate⟩
    obtain ⟨depth, hfeed⟩ := Matcher.feed_called hentry hchain rfl event
    have heval := Code.evaluate_evaluates (callFragment depth)
    obtain ⟨emitted', w, hrun⟩ := chain_run_turn hchecked
      (hadmitted event _ heval none m.rule.fragments)
      (fun batch => hreduced _ heval batch event none m.rule.fragments)
      (fun v => hverdict _ heval v event none m.rule.fragments) ⟨retained, emitted⟩ _
    obtain ⟨t, hwith, hget⟩ := withState_run name .chain hrun
    rw [← chain_fragment_run (f := ⟨name, .chain plan⟩) (s := m.session) rfl hstate] at hwith
    obtain ⟨hresult, hnext⟩ := hfeed _ t hwith
    refine ⟨hresult, emitted', ?_⟩
    rw [hnext]
    change (t.env.states.get? name).getD _ = _
    rw [hget]
    rfl
  · intro event hrejects htrue
    have hsettled := hadmitted event evaluate evaluate_evaluates none rule.fragments rule.matcher.session
    rw [Rule.Rejects, hsettled] at hrejects
    have hrejects : admitted event = .ok false := hrejects
    rw [hrejects] at htrue
    cases checked with
    | error e => cases htrue
    | ok _ => cases htrue

/-- The elements at the places that are kept. -/
def remaining {α : Type} : List Bool → List α → List α
  | keep :: keeps, a :: as => if keep then a :: remaining keeps as else remaining keeps as
  | _, _ => []

theorem results_remaining {rule : Rule} {judged : List Event → Except RunError Bool}
    {admitted : Event → Except RunError Bool} (h : rule.Turns name plan judged admitted) {m n : Matcher}
    (hm : m.rule = rule) (hn : n.rule = rule) {retained : List Event} (hmr : m.Retains name retained)
    (hnr : n.Retains name retained) (hidle : Chain.Idle plan judged retained) (keeps : List Bool)
    {events : List Event} (hrejected : ∀ p ∈ events.zip keeps, p.2 = false → rule.Rejects plan p.1) :
    n.results (remaining keeps events) = remaining keeps (m.results events) := by
  induction events generalizing m n retained keeps with
  | nil =>
    cases keeps with
    | nil => rfl
    | cons keep keeps => rfl
  | cons e es ih =>
    cases keeps with
    | nil => rfl
    | cons keep keeps =>
      have hrest : ∀ p ∈ es.zip keeps, p.2 = false → rule.Rejects plan p.1 :=
        fun p hp => hrejected p (List.mem_cons_of_mem _ hp)
      obtain ⟨hresult, hretains⟩ := h.feed e hm hmr
      have hidle' : Chain.Idle plan judged (Chain.turn plan judged retained e (admitted e)).2 :=
        Chain.turn_idle hidle
      rw [Matcher.results, remaining, remaining]
      cases keep with
      | true =>
        obtain ⟨hresult', hretains'⟩ := h.feed e hn hnr
        rw [if_pos rfl, if_pos rfl, Matcher.results, hresult, hresult']
        rw [ih ((Matcher.feed_rule m e).trans hm) ((Matcher.feed_rule n e).trans hn) hretains hretains'
          hidle' keeps hrest]
      | false =>
        have hrejects := h.rejected e (hrejected (e, false) List.mem_cons_self rfl)
        rw [Chain.turn_of_rejected hidle hrejects] at hretains
        rw [if_neg nofun, if_neg nofun]
        exact ih ((Matcher.feed_rule m e).trans hm) hn hretains hnr hidle keeps hrest

/-- What a chain answers to an event does not depend on the events that its filters have not let in, if
its conditions call no fragment and those behind the filters ask no filter of the host. -/
theorem rejected_removed {registry : Registry} {constants : List (String × Value)} {source : String}
    {rule : Rule} {k : Keyed Value} {calls : List (Call Expr)}
    (h : compile registry constants source = .ok rule)
    (hselected : selected registry constants source = .ok (k, .chain calls)) :
    ∃ name plan, rule.entry = .call name (rule.fragments.length - 1) ∧
      rule.fragments[rule.fragments.length - 1]? = some ⟨name, .chain plan⟩ ∧
      (plan.references = [] → plan.askedBehind = [] → ∀ (events : List Event) (keeps : List Bool),
        (∀ p ∈ events.zip keeps, p.2 = false → rule.Rejects plan p.1) →
        rule.matcher.results (remaining keeps events) = remaining keeps (rule.matcher.results events)) := by
  obtain ⟨name, plan, -, hentry, hchain⟩ := Rule.chain_ofExpr (Rule.of_selected h hselected)
  refine ⟨name, plan, hentry, hchain, ?_⟩
  intro hcalls hasked events keeps hrejected
  obtain ⟨judged, admitted, hturns⟩ := Rule.turns_of_chain hentry hchain hcalls hasked
  have hfresh : rule.matcher.Retains name [] := ⟨[], rfl⟩
  exact results_remaining hturns rfl rfl hfresh hfresh Chain.idle_nil keeps hrejected

/-- Two readings are not let in: one that comes between two that are summed, and one after `clear`. -/
def aroundClear : List Event :=
  [⟨"a", .integer 1, 0⟩, ⟨"b", .integer (-7), 1⟩, ⟨"c", .integer 2, 2⟩, ⟨"d", .integer 0, 3⟩,
    ⟨"e", .integer 1, 4⟩]

/-- The chain that the rule calls meets the conditions of `rejected_removed` with these events. -/
def Rule.leavesOut (rule : Rule) (keeps : List Bool) (events : List Event) : Bool :=
  match rule.fragments[rule.fragments.length - 1]? with
  | some ⟨_, .chain plan⟩ => decide (plan.references = [] ∧ plan.askedBehind = [] ∧
      ∀ p ∈ events.zip keeps, p.2 = false → rule.Rejects plan p.1)
  | _ => false

theorem rejected_removed_aroundClear :
    ∃ rule, compile .empty [] "filter(>0).limit(2).sum().meet(>=3).clear()" = .ok rule ∧
      rule.matcher.results aroundClear = [.ok false, .ok false, .ok true, .ok false, .ok false] ∧
      rule.matcher.results (remaining [true, false, true, false, true] aroundClear) =
        remaining [true, false, true, false, true] (rule.matcher.results aroundClear) := by
  obtain ⟨rule, h, hrun⟩ := exists_of_any (p := fun rule => decide (
      rule.matcher.results aroundClear = [.ok false, .ok false, .ok true, .ok false, .ok false]) &&
      rule.leavesOut [true, false, true, false, true] aroundClear)
    (r := compile .empty [] "filter(>0).limit(2).sum().meet(>=3).clear()") (by decide +kernel)
  obtain ⟨hresults, hplan⟩ := Bool.and_eq_true_iff.mp hrun
  obtain ⟨k, calls, hs⟩ : ∃ k calls, selected .empty [] "filter(>0).limit(2).sum().meet(>=3).clear()" =
      .ok (k, .chain calls) := selected_chain (by decide +kernel)
  obtain ⟨name, plan, -, hchain, hremoved⟩ := rejected_removed h hs
  rw [Rule.leavesOut, hchain] at hplan
  obtain ⟨hcalls, hasked, hrejected⟩ := of_decide_eq_true hplan
  exact ⟨rule, h, of_decide_eq_true hresults, hremoved hcalls hasked _ _ hrejected⟩

end EventRules
