import EventRules.Proofs.Arrow.Calls
import EventRules.Proofs.Lowering.Stages
import EventRules.Proofs.Matching.Progress

/-!
# How an arrow advances

The state of an arrow tells of the calls that have been made of it: it points at a stage, and beyond the
first one it keeps the time of the event that the stage before held on, in the last call in which any
stage held. So each stage behind the first one is measured from that time, and the first one from none.
A call leaves the state, goes on to the next stage or, if the last one holds, back to the first.
-/

namespace EventRules
set_option autoImplicit false

open Routine

/-- How far the arrow has come; without a stored state it stands at its first stage. -/
def Fragment.arrowIn (f : Fragment) (env : Environment) : Arrow.State :=
  match env.states.get? f.name with
  | some (.arrow own) => own
  | _ => .initial

/-- What is stored for the arrow is a state of an arrow. -/
def Fragment.StoresArrow (f : Fragment) (env : Environment) : Prop :=
  ∀ state, env.states.get? f.name = some state → ∃ own, state = .arrow own

namespace ArrowCall

/-- The state that the call finds. -/
def found (f : Fragment) (c : ArrowCall) : Arrow.State := f.arrowIn c.begun.env

/-- The state that it leaves. -/
def left (f : Fragment) (c : ArrowCall) : Arrow.State := f.arrowIn c.ended.env

/-- How code answers inside the call. -/
def holds (c : ArrowCall) (f : Fragment) (stage : Code) : Except RunError Bool × Session :=
  (Evaluator.holds (Code.evaluate (callFragment c.depth)) stage c.frame.event.value
    { c.frame with anchor := (c.found f).lastAdvance }).run (c.begun.entered f.name)

/-- The stage that the arrow stands at holds on the event. -/
def Satisfies (f : Fragment) (plan : Arrow.Plan) (c : ArrowCall) : Prop :=
  ∃ stage, plan.stages[(c.found f).pointer]? = some stage ∧ (c.holds f stage).1 = .ok true

/-- What one call does. -/
structure Proceeds (f : Fragment) (plan : Arrow.Plan) (c : ArrowCall) : Prop where
  /-- the stage that the arrow stands at decides, measured from the last advance, whoever evaluates it -/
  tests : ∃ stage, plan.stages[(c.found f).pointer]? = some stage ∧
    ∀ (eval : Evaluator) (s : Session),
      (Arrow.run eval plan c.frame).run (c.found f, s) =
        plan.advance c.frame.event.timestamp (c.found f)
          ((eval.holds stage c.frame.event.value
            { c.frame with anchor := (c.found f).lastAdvance }).run s).2
          ((eval.holds stage c.frame.event.value
            { c.frame with anchor := (c.found f).lastAdvance }).run s).1
  /-- the arrow stays, advances by one stage, or answers true and starts again -/
  moves :
    (c.answer ≠ .ok true ∧ c.left f = c.found f ∧ ¬c.Satisfies f plan) ∨
    (c.answer = .ok false ∧ c.left f = ⟨(c.found f).pointer + 1, some c.frame.event.timestamp⟩ ∧
      (c.found f).pointer + 1 < plan.stages.length ∧ c.Satisfies f plan) ∨
    (c.answer = .ok true ∧ c.left f = .initial ∧ (c.found f).pointer + 1 = plan.stages.length ∧
      c.Satisfies f plan)
  /-- nothing that happens inside the call is a call of the arrow -/
  alone : ∃ entries, c.ended.trace = entries ++ .called f.name :: c.begun.trace ∧ .called f.name ∉ entries

end ArrowCall

/-- The state of an arrow of which these calls have been made since it stood at its first stage. -/
structure Arrow.Plan.Attained (plan : Arrow.Plan) (f : Fragment) (calls : List ArrowCall)
    (own : Arrow.State) : Prop where
  inside : own.pointer < plan.stages.length
  timed : own.lastAdvance = none ↔ own.pointer = 0
  satisfied : ∀ time, own.lastAdvance = some time → ∃ before c after, calls = before ++ c :: after ∧
    c.frame.event.timestamp = time ∧ (c.found f).pointer + 1 = own.pointer ∧ c.Satisfies f plan ∧
    ∀ d ∈ after, ¬d.Satisfies f plan

section

variable {base : Frame} {f : Fragment} {plan : Arrow.Plan} {calls : List ArrowCall} {own : Arrow.State}
  {c : ArrowCall}

theorem Arrow.Plan.Attained.initial (hne : plan.stages ≠ []) (calls : List ArrowCall) :
    plan.Attained f calls .initial where
  inside := List.length_pos_of_ne_nil hne
  timed := ⟨fun _ => rfl, fun _ => rfl⟩
  satisfied := nofun

/-- Inside an arrow the time is measured from its last advance. -/
theorem Arrow.Plan.Attained.anchor (h : plan.Attained f calls own) : own.anchor = own.lastAdvance := by
  rw [Arrow.State.anchor]
  by_cases hzero : own.pointer = 0
  · rw [if_neg (by omega), h.timed.mpr hzero]
  · exact if_pos (by omega)

theorem Arrow.Plan.Attained.stage (h : plan.Attained f calls own) :
    ∃ stage, plan.stages[own.pointer]? = some stage :=
  ⟨_, List.getElem?_eq_getElem h.inside⟩

/-! ### States -/

theorem Fragment.StoresArrow.state_in {env : Environment} (h : f.StoresArrow env) :
    (env.states.get? f.name).getD (.arrow .initial) = .arrow (f.arrowIn env) := by
  cases hstored : env.states.get? f.name with
  | none => simp [Fragment.arrowIn, hstored]
  | some state =>
    obtain ⟨own, rfl⟩ := h state hstored
    simp [Fragment.arrowIn, hstored]

theorem Quiet.arrowIn_eq {s t : Session} (h : Quiet f.name s t) : f.arrowIn t.env = f.arrowIn s.env := by
  rw [Fragment.arrowIn, Fragment.arrowIn, h.kept]

theorem Quiet.storesArrow {s t : Session} (h : Quiet f.name s t) (hs : f.StoresArrow s.env) :
    f.StoresArrow t.env := by
  rw [Fragment.StoresArrow, h.kept]
  exact hs

/-! ### One call -/

/-- A fragment runs without its state in the session, and gets it back. -/
theorem withState_put {State : Type} {name : String} (wrap : State → FragmentState) {own own' : State}
    {step : Step State Bool} {s t : Session} {r : Except RunError Bool}
    (h : step.run (own, s.entered name) = (r, (own', t))) :
    (withState name wrap own step).run ⟨s.env, .called name :: s.trace⟩ =
      (r, { t with env := { t.env with states := t.env.states.put name (wrap own') } }) := by
  change step.run (own, ⟨⟨s.env.constants, s.env.states.remove name⟩, .called name :: s.trace⟩) = _ at h
  change withState name wrap own step _ = _
  rw [withState]
  simp only [h]

/-- A call of the arrow is a run of its plan on the state that it finds. -/
theorem ArrowCall.Made.ran (h : c.Made base f) (hbody : f.body = .arrow plan)
    (hstores : f.StoresArrow c.begun.env) :
    ∃ own t, (Arrow.run (Code.evaluate (callFragment c.depth)) plan c.frame).run
        (c.found f, c.begun.entered f.name) = (c.answer, (own, t)) ∧
      c.ended.env.states.get? f.name = some (.arrow own) ∧ c.ended.trace = t.trace := by
  have hrun := h.2
  rw [arrow_fragment_run hbody hstores.state_in] at hrun
  cases hstep : (Arrow.run (Code.evaluate (callFragment c.depth)) plan c.frame).run
      (c.found f, c.begun.entered f.name) with
  | mk r w =>
    obtain ⟨own, t⟩ := w
    have hput := withState_put .arrow hstep
    obtain ⟨hanswer, hended⟩ := Prod.mk.inj (hput.symm.trans hrun)
    refine ⟨own, t, ?_, ?_, ?_⟩
    · rw [← hanswer]
    · rw [← hended]
      exact Keyed.get_put_self t.env.states f.name _
    · rw [← hended]

theorem ArrowCall.satisfies_iff {stage : Code} (hstage : plan.stages[(c.found f).pointer]? = some stage) :
    c.Satisfies f plan ↔ (c.holds f stage).1 = .ok true := by
  constructor
  · rintro ⟨stage', hstage', hholds⟩
    obtain rfl : stage' = stage := Option.some.inj (hstage'.symm.trans hstage)
    exact hholds
  · exact fun hholds => ⟨stage, hstage, hholds⟩

/-- Whoever evaluates the stage that the arrow stands at does so with the time of the last advance. -/
theorem Arrow.Plan.Attained.run (h : plan.Attained f calls own) {stage : Code}
    (hstage : plan.stages[own.pointer]? = some stage) (eval : Evaluator) (frame : Frame) (s : Session) :
    (Arrow.run eval plan frame).run (own, s) =
      plan.advance frame.event.timestamp own
        ((eval.holds stage frame.event.value { frame with anchor := own.lastAdvance }).run s).2
        ((eval.holds stage frame.event.value { frame with anchor := own.lastAdvance }).run s).1 := by
  rw [← h.anchor]
  exact arrow_run_advance hstage rfl

theorem ArrowCall.Made.moves (h : c.Made base f) (hbody : f.body = .arrow plan)
    (hstores : f.StoresArrow c.begun.env) (hattained : plan.Attained f calls (c.found f)) :
    (c.answer ≠ .ok true ∧ c.left f = c.found f ∧ ¬c.Satisfies f plan) ∨
    (c.answer = .ok false ∧ c.left f = ⟨(c.found f).pointer + 1, some c.frame.event.timestamp⟩ ∧
      (c.found f).pointer + 1 < plan.stages.length ∧ c.Satisfies f plan) ∨
    (c.answer = .ok true ∧ c.left f = .initial ∧ (c.found f).pointer + 1 = plan.stages.length ∧
      c.Satisfies f plan) := by
  obtain ⟨stage, hstage⟩ := hattained.stage
  obtain ⟨own, t, hran, hleft, -⟩ := h.ran hbody hstores
  have hown : c.left f = own := by simp [ArrowCall.left, Fragment.arrowIn, hleft]
  rw [hattained.run hstage] at hran
  change plan.advance _ _ (c.holds f stage).2 (c.holds f stage).1 = _ at hran
  rw [ArrowCall.satisfies_iff hstage, hown]
  cases hholds : (c.holds f stage).1 with
  | error e =>
    rw [hholds] at hran
    obtain ⟨hanswer, hmoved⟩ := Prod.mk.inj hran
    exact .inl ⟨by rw [← hanswer]; exact nofun, (Prod.mk.inj hmoved).1.symm, nofun⟩
  | ok held =>
    rw [hholds] at hran
    cases held with
    | false =>
      obtain ⟨hanswer, hmoved⟩ := Prod.mk.inj hran
      exact .inl ⟨by rw [← hanswer]; exact nofun, (Prod.mk.inj hmoved).1.symm, nofun⟩
    | true =>
      rw [Arrow.Plan.advance] at hran
      by_cases hlast : (c.found f).pointer + 1 < plan.stages.length
      · rw [if_pos hlast] at hran
        obtain ⟨hanswer, hmoved⟩ := Prod.mk.inj hran
        exact .inr (.inl ⟨hanswer.symm, (Prod.mk.inj hmoved).1.symm, hlast, rfl⟩)
      · rw [if_neg hlast] at hran
        obtain ⟨hanswer, hmoved⟩ := Prod.mk.inj hran
        have hinside := hattained.inside
        exact .inr (.inr ⟨hanswer.symm, (Prod.mk.inj hmoved).1.symm, by omega, rfl⟩)

/-- A call cannot come back to its arrow: what it reaches stands before the arrow. -/
theorem ArrowCall.Made.alone {index : Nat} (h : c.Made base f) (hplaced : WellPlaced base.fragments)
    (hnames : (base.fragments.map Fragment.name).Nodup) (hf : base.fragments[index]? = some f)
    (hbody : f.body = .arrow plan) (hstores : f.StoresArrow c.begun.env) :
    ∃ entries, c.ended.trace = entries ++ .called f.name :: c.begun.trace ∧ .called f.name ∉ entries := by
  have hmem := List.mem_of_getElem? hf
  have horderly := hplaced.orderly hnames
  have hframe : c.frame.fragments = base.fragments := by
    obtain ⟨_, hlike⟩ := h.1
    rw [hlike]
  obtain ⟨own, t, hran, -, htrace⟩ := h.ran hbody hstores
  have hkeeps := arrow_keeps (codeKeeps (call_keeps horderly c.depth)) hframe
    (horderly.owned f hmem plan hbody) (c.found f) (c.begun.entered f.name)
  rw [hran] at hkeeps
  obtain ⟨entries, hentries, hlogged⟩ := hkeeps.trace
  refine ⟨entries, htrace.trans hentries, ?_⟩
  intro hcalled
  have hlog : f.name ∈ entries.reverse.filterMap TraceEntry.called? :=
    List.mem_filterMap.mpr ⟨_, List.mem_reverse.mpr hcalled, rfl⟩
  rw [hlogged] at hlog
  obtain ⟨k, hk, hname⟩ := List.mem_map.mp hlog
  obtain ⟨j, g, hj, hg, hg'⟩ := hkeeps.reached k hk
  have hrefs : plan.references = f.references := by
    rw [Fragment.references, hbody]
    rfl
  rw [hrefs] at hj
  have hlt := hplaced.reaches_lt hf hj
  have hsame := Site.index_eq_of_name hnames hg hf (hg'.trans hname)
  omega

/-- After a call the arrow has the state that the call and those before it tell of. -/
theorem ArrowCall.Made.attained (h : c.Made base f) (hbody : f.body = .arrow plan)
    (hstores : f.StoresArrow c.begun.env) (hattained : plan.Attained f calls (c.found f)) :
    f.StoresArrow c.ended.env ∧ plan.Attained f (calls ++ [c]) (c.left f) := by
  refine ⟨?_, ?_⟩
  · obtain ⟨own, t, -, hleft, -⟩ := h.ran hbody hstores
    intro state hstate
    exact ⟨own, Option.some.inj (hstate.symm.trans hleft)⟩
  · rcases h.moves hbody hstores hattained with ⟨-, hleft, hmissed⟩ | ⟨-, hleft, hnext, hheld⟩ | ⟨-, hleft, -⟩
    · rw [hleft]
      refine ⟨hattained.inside, hattained.timed, ?_⟩
      intro time htime
      obtain ⟨before, d, after, rfl, hd⟩ := hattained.satisfied time htime
      refine ⟨before, d, after ++ [c], by simp, hd.1, hd.2.1, hd.2.2.1, ?_⟩
      intro d' hd'
      rcases List.mem_append.mp hd' with hd' | hd'
      · exact hd.2.2.2 d' hd'
      · rw [List.mem_singleton.mp hd']
        exact hmissed
    · rw [hleft]
      refine ⟨hnext, ⟨nofun, nofun⟩, ?_⟩
      intro time htime
      exact ⟨calls, c, [], rfl, Option.some.inj htime, rfl, hheld, List.forall_mem_nil _⟩
    · rw [hleft]
      exact .initial (List.ne_nil_of_length_pos (Nat.zero_lt_of_lt hattained.inside)) _

/-! ### Runs -/

section

variable {index : Nat} (hplaced : WellPlaced base.fragments)
  (hnames : (base.fragments.map Fragment.name).Nodup) (hf : base.fragments[index]? = some f)
  (hbody : f.body = .arrow plan)
include hplaced hnames hf hbody

theorem ArrowCall.Made.proceeds (h : c.Made base f) (hstores : f.StoresArrow c.begun.env)
    (hattained : plan.Attained f calls (c.found f)) : c.Proceeds f plan where
  tests := by
    obtain ⟨stage, hstage⟩ := hattained.stage
    exact ⟨stage, hstage, fun eval s => hattained.run hstage eval c.frame s⟩
  moves := h.moves hbody hstores hattained
  alone := h.alone hplaced hnames hf hbody hstores

/-- What one call preserves, all the calls between two sessions do. -/
theorem Calls.attained {past : List ArrowCall} {s t : Session} (h : Calls base f s calls t)
    (hstores : f.StoresArrow s.env) (hpast : plan.Attained f past (f.arrowIn s.env)) :
    f.StoresArrow t.env ∧ plan.Attained f (past ++ calls) (f.arrowIn t.env) ∧
      ∀ before c after, calls = before ++ c :: after →
        plan.Attained f (past ++ before) (c.found f) ∧ c.Proceeds f plan := by
  induction h with
  | start =>
    refine ⟨hstores, by rwa [List.append_nil], ?_⟩
    intro before c after hsplit
    simp at hsplit
  | quiet _ hquiet ih =>
    obtain ⟨ht, hattained, hcalls⟩ := ih
    exact ⟨hquiet.storesArrow ht, by rwa [hquiet.arrowIn_eq], hcalls⟩
  | @call calls c _ hmade ih =>
    obtain ⟨ht, hattained, hcalls⟩ := ih
    obtain ⟨hu, hnext⟩ := hmade.attained hbody ht hattained
    refine ⟨hu, by rwa [← List.append_assoc], ?_⟩
    intro before d after hsplit
    rcases List.eq_nil_or_concat after with rfl | ⟨after, e, rfl⟩
    · obtain ⟨rfl, hsame⟩ := List.append_inj' hsplit rfl
      obtain rfl := List.singleton_inj.mp hsame
      exact ⟨hattained, hmade.proceeds hplaced hnames hf hbody ht hattained⟩
    · rw [List.concat_eq_append, ← List.cons_append, ← List.append_assoc] at hsplit
      obtain ⟨rfl, -⟩ := List.append_inj' hsplit rfl
      exact hcalls before d after rfl

end

end

/-- What has been done with a matcher of the rule, and the calls of the arrow since it was last reset. -/
inductive Rule.Calls (rule : Rule) (f : Fragment) : List Action → List ArrowCall → Prop
  | fresh : Rule.Calls rule f [] []
  | feed {actions : List Action} {calls more : List ArrowCall} (h : Rule.Calls rule f actions calls)
    (event : Event)
    (hmore : EventRules.Calls ⟨event, none, rule.fragments, rule.registry⟩ f
      (rule.matcher.acted actions).session more
      ⟨((rule.matcher.acted actions).feed event).2.env,
        ((rule.matcher.acted actions).feed event).1.trace.reverse⟩) :
    Rule.Calls rule f (actions ++ [.feed event]) (calls ++ more)
  | reset {actions : List Action} {calls : List ArrowCall} (h : Rule.Calls rule f actions calls) :
    Rule.Calls rule f (actions ++ [.reset]) []

section

variable {rule : Rule} {f : Fragment} {plan : Arrow.Plan}

theorem acted_concat (m : Matcher) (actions : List Action) (action : Action) :
    m.acted (actions ++ [action]) = (m.acted actions).act action := by
  rw [Matcher.acted, Matcher.acted, List.foldl_append]
  rfl

/-- Every run is made of calls of the arrow and of what does not concern it. -/
theorem Rule.exists_calls (h : Unowned rule.fragments f) (actions : List Action) :
    ∃ calls, rule.Calls f actions calls := by
  induction actions using List.reverseRecOn with
  | nil => exact ⟨[], .fresh⟩
  | append_singleton actions action ih =>
    obtain ⟨calls, hcalls⟩ := ih
    cases action with
    | reset => exact ⟨[], hcalls.reset⟩
    | feed event =>
      have hrule : (rule.matcher.acted actions).rule = rule := acted_rule rule.matcher actions
      let base : Frame := ⟨event, none, rule.fragments, rule.registry⟩
      have hbase : Unowned base.fragments f := h
      obtain ⟨more, hmore⟩ :=
        evaluate_calls hbase rule.entry event.value (rule.matcher.acted actions).session
      refine ⟨calls ++ more, hcalls.feed event ?_⟩
      have hsession : (⟨((rule.matcher.acted actions).feed event).2.env,
          ((rule.matcher.acted actions).feed event).1.trace.reverse⟩ : Session) =
          ((evaluate rule.entry event.value ⟨event, none, rule.fragments, rule.registry⟩).run
            (rule.matcher.acted actions).session).2 := by
        rw [Matcher.feed, hrule]
        dsimp only
        rw [List.reverse_reverse]
        rfl
      rw [hsession]
      exact hmore

/-- The state of an arrow, after whatever has been done with a matcher and at each of its calls, is the
one that the calls before tell of, and each call proceeds from it. -/
theorem Rule.Calls.attained {index : Nat} (hplaced : WellPlaced rule.fragments)
    (hnames : (rule.fragments.map Fragment.name).Nodup) (hf : rule.fragments[index]? = some f)
    (hbody : f.body = .arrow plan) (hne : plan.stages ≠ []) {actions : List Action} {calls : List ArrowCall}
    (h : rule.Calls f actions calls) :
    f.StoresArrow (rule.matcher.acted actions).env ∧
      plan.Attained f calls (f.arrowIn (rule.matcher.acted actions).env) ∧
      ∀ before c after, calls = before ++ c :: after →
        plan.Attained f before (c.found f) ∧ c.Proceeds f plan := by
  have hinitial : ∀ env : Environment, env.states = .empty → f.StoresArrow env ∧
      plan.Attained f [] (f.arrowIn env) ∧
      ∀ before c after, ([] : List ArrowCall) = before ++ c :: after →
        plan.Attained f before (c.found f) ∧ c.Proceeds f plan := by
    intro env hempty
    have hnone : env.states.get? f.name = none := by rw [hempty, Keyed.get_empty]
    have hstate : f.arrowIn env = .initial := by simp [Fragment.arrowIn, hnone]
    refine ⟨?_, ?_, ?_⟩
    · rw [Fragment.StoresArrow, hnone]
      exact nofun
    · rw [hstate]
      exact .initial hne []
    · intro before c after hsplit
      simp at hsplit
  induction h with
  | fresh => exact hinitial _ rfl
  | reset _ _ =>
    rw [acted_concat]
    exact hinitial _ rfl
  | @feed actions calls more _ event hmore ih =>
    obtain ⟨hstores, hattained, hcalls⟩ := ih
    obtain ⟨ht, hnext, hmade⟩ := hmore.attained hplaced hnames hf hbody hstores hattained
    rw [acted_concat]
    refine ⟨ht, hnext, ?_⟩
    intro before c after hsplit
    rcases List.append_eq_append_iff.mp hsplit with ⟨between, rfl, hrest⟩ | ⟨between, rfl, hrest⟩
    · exact hmade between c after hrest
    · cases between with
      | nil =>
        have hfirst := hmade [] c after hrest.symm
        rwa [List.append_nil, List.append_nil] at hfirst
      | cons d between =>
        obtain ⟨rfl, -⟩ := List.cons.inj hrest
        exact hcalls before c between rfl

/-- Whatever has been done with a matcher of a compiled rule, the state of an arrow points at one of its
stages; behind the first one it keeps the time of the event that the stage before held on, and each
stage is measured from the time kept. A call leaves the state, goes on to the next stage, or answers true
and goes back to the first. -/
theorem arrow_advances {registry : Registry} {constants : List (String × Value)} {source : String}
    (h : compile registry constants source = .ok rule) (hf : f ∈ rule.fragments)
    (hbody : f.body = .arrow plan) (actions : List Action) :
    (∃ calls, rule.Calls f actions calls) ∧
    ∀ calls, rule.Calls f actions calls →
      (∀ state, (rule.matcher.acted actions).env.states.get? f.name = some state →
        ∃ own, state = .arrow own ∧ plan.Attained f calls own) ∧
      ∀ before c after, calls = before ++ c :: after →
        plan.Attained f before (c.found f) ∧ c.Proceeds f plan := by
  have hlinear := compiled_linear h
  obtain ⟨index, hindex⟩ := List.mem_iff_getElem?.mp hf
  have harrow : f.body.isArrow = true := by rw [hbody]; rfl
  refine ⟨Rule.exists_calls (hlinear.placed.unowned hlinear.names hf harrow) actions, ?_⟩
  intro calls hcalls
  have hne : plan.stages ≠ [] := compiled_staged h f hf plan hbody
  obtain ⟨hstores, hattained, hmade⟩ :=
    hcalls.attained hlinear.placed hlinear.names hindex hbody hne
  refine ⟨?_, hmade⟩
  intro state hstate
  obtain ⟨own, rfl⟩ := hstores state hstate
  have hown : f.arrowIn (rule.matcher.acted actions).env = own := by simp [Fragment.arrowIn, hstate]
  exact ⟨own, rfl, hown ▸ hattained⟩

end

/-- Behind a reset the first stage held at 100, and the delay is measured from there. -/
theorem arrow_advances_waiting :
    ∃ rule f plan actions, compile .empty [] "\x7b>1\x7d->\x7bdelay(1s)\x7d" = .ok rule ∧
      f ∈ rule.fragments ∧ f.body = .arrow plan ∧
      actions = [.feed ⟨"a", .integer 5, 0⟩, .reset, .feed ⟨"b", .integer 2, 100⟩,
        .feed ⟨"c", .integer 0, 600⟩] ∧
      (rule.matcher.acted actions).env.states.get? f.name = some (.arrow ⟨1, some 100⟩) ∧
      ∃ before c after, rule.Calls f actions (before ++ c :: after) ∧
        c.frame.event.timestamp = 100 ∧ c.Satisfies f plan ∧ ∀ d ∈ after, ¬d.Satisfies f plan := by
  let actions : List Action := [.feed ⟨"a", .integer 5, 0⟩, .reset, .feed ⟨"b", .integer 2, 100⟩,
    .feed ⟨"c", .integer 0, 600⟩]
  obtain ⟨rule, h, hrun⟩ := exists_of_any (p := fun rule => rule.fragments.any fun f =>
      f.body.isArrow && (rule.matcher.acted actions).env.states.get? f.name ==
        some (.arrow ⟨1, some 100⟩))
    (r := compile .empty [] "\x7b>1\x7d->\x7bdelay(1s)\x7d") (by decide +kernel)
  obtain ⟨f, hf, htest⟩ := List.any_eq_true.mp hrun
  obtain ⟨harrow, hstate⟩ := Bool.and_eq_true_iff.mp htest
  have hstate := eq_of_beq hstate
  obtain ⟨plan, hbody⟩ : ∃ plan, f.body = .arrow plan := by
    cases hbody : f.body with
    | arrow plan => exact ⟨plan, rfl⟩
    | chain plan =>
      rw [hbody] at harrow
      cases harrow
    | monitor plan =>
      rw [hbody] at harrow
      cases harrow
  obtain ⟨⟨calls, hcalls⟩, hall⟩ := arrow_advances h hf hbody actions
  obtain ⟨own, hown, hattained⟩ := (hall calls hcalls).1 _ hstate
  cases hown
  obtain ⟨before, c, after, rfl, htime, -, hheld, hmissed⟩ := hattained.satisfied 100 rfl
  exact ⟨rule, f, plan, actions, h, hf, hbody, rfl, hstate, before, c, after, hcalls, htime, hheld, hmissed⟩

end EventRules
