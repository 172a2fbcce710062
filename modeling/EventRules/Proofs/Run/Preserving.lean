import EventRules.Evaluation
import EventRules.Proofs.Rule.Contract
import EventRules.Proofs.Run.CallLog

/-!
# What evaluation preserves besides the calls of one fragment

Something is said of a session about one fragment: about its state, or about what has been called. If it
does not depend on the states of the others, on their calls and on verdicts of chains, then all parts of
an evaluation preserve it as long as the calls of that fragment do, at whatever depth they are made.
-/

namespace EventRules
set_option autoImplicit false

open Routine

/-! ### Steps -/

/-- A step on the state of a fragment keeps what is said of the session. -/
abbrev StepKeeps {State α : Type} (I : Session → Prop) (m : Step State α) : Prop :=
  m.Keeps fun s => I s.2

namespace StepKeeps

variable {I : Session → Prop} {State α : Type}

theorem lift {m : Run α} (h : m.Keeps I) : StepKeeps I (Step.lift m : Step State α) :=
  fun s hs => h s.2 hs

theorem own : StepKeeps I (Step.own : Step State State) := fun _ hs => ⟨hs, trivial⟩

protected theorem setOwn (state : State) : StepKeeps I (Step.setOwn state) := fun _ hs => ⟨hs, trivial⟩

end StepKeeps

/-! ### Evaluators -/

/-- What one evaluation sees, whatever time the stage before held at. -/
def Frame.Like (base frame : Frame) : Prop := ∃ anchor, frame = { base with anchor := anchor }

theorem Frame.Like.anchored {base frame : Frame} (h : base.Like frame) (anchor : Option Int64) :
    base.Like { frame with anchor := anchor } := by
  obtain ⟨_, rfl⟩ := h
  exact ⟨anchor, rfl⟩

/-- Evaluating code under such a frame preserves what is said of the session. -/
def EvaluatorKeeps (base : Frame) (I : Session → Prop) (eval : Evaluator) : Prop :=
  ∀ code subject frame, base.Like frame → Routine.Keeps I (eval code subject frame)

section

variable {base frame : Frame} {I : Session → Prop} {eval : Evaluator}
  {call : String → Nat → Frame → Run Bool}

theorem code_preserves (h : ∀ name index frame, base.Like frame → Routine.Keeps I (call name index frame)) :
    EvaluatorKeeps base I (Code.evaluate call) := by
  intro code subject frame hframe
  induction code with
  | literal v => exact .pure v
  | subject => exact .pure subject
  | binary op left right ihl ihr =>
    cases op with
    | and => exact ihl.bind fun l => .ite (.pure _) (ihr.bind fun r => .pure _)
    | or => exact ihl.bind fun l => .ite (.pure _) (ihr.bind fun r => .pure _)
    | _ => exact ihl.bind fun l => ihr.bind fun r => .ofExcept _
  | not inner ih => exact ih.bind fun v => .pure _
  | step up operand ih => exact ih.bind fun v => .ofExcept _
  | compare op operand ih => exact ih.bind fun v => .pure _
  | call fragment index => exact (h fragment index frame hframe).bind fun b => .pure _
  | filter extension => exact (Routine.Keeps.ofExcept _).bind fun f => .pure _

variable (heval : EvaluatorKeeps base I eval) (hframe : base.Like frame)
include heval hframe

theorem holds_preserves (code : Code) (subject : Value) : Routine.Keeps I (eval.holds code subject frame) :=
  (heval code subject frame hframe).bind fun v => .pure v.asBool

/-! ### Chains -/

theorem admits_preserves (tests : List Test) : Routine.Keeps I (Chain.admits eval frame tests) := by
  induction tests with
  | nil => exact .pure true
  | cons test tests ih =>
    cases test with
    | condition code => exact (holds_preserves heval hframe code _).bind fun passed => .ite ih (.pure false)
    | extension name =>
      exact (Routine.Keeps.ofExcept _).bind fun f => .ite ih (.pure false)

theorem hits_preserve (condition : Code) (batch : List Event) :
    Routine.Keeps I (Chain.countHits eval condition frame batch) := by
  induction batch with
  | nil => exact .pure 0
  | cons e es ih =>
    exact (holds_preserves heval hframe condition _).bind fun hit => ih.bind fun others => .pure _

theorem aggregate_preserves (how : Chain.Aggregation) (batch : List Event) :
    Routine.Keeps I (Chain.aggregate eval how batch frame) := by
  cases how with
  | hitRate condition =>
    exact .ite (.pure _) ((hits_preserve heval hframe condition batch).bind fun hits => .pure _)
  | extension name => exact (Routine.Keeps.ofExcept _).bind fun f => .pure _
  | _ => exact .pure _

theorem judge_preserves (verdict : Test) (reduced : Value) :
    Routine.Keeps I (Chain.judge eval frame verdict reduced) := by
  cases verdict with
  | condition code => exact holds_preserves heval hframe code reduced
  | extension name => exact (Routine.Keeps.ofExcept _).bind fun f => .pure _

theorem chain_preserves (hjudged : ∀ chain count reduced verdict s, I s →
      I ⟨s.env, .judged chain count reduced verdict :: s.trace⟩) (name : String) (plan : Chain.Plan) :
    StepKeeps I (Chain.run eval name plan frame) := by
  have htake : Routine.Keeps I (Chain.checkTake name plan.take) := by
    unfold Chain.checkTake
    split
    · exact .ite (.fail _) (.pure ())
    · exact .pure ()
  unfold Chain.run
  refine (StepKeeps.lift htake).bind fun _ => ?_
  refine (StepKeeps.lift (admits_preserves heval hframe plan.filters)).bind fun admitted => ?_
  refine StepKeeps.own.bind fun own => ?_
  dsimp only
  generalize Chain.retain plan.sampler own.retained frame.event admitted = parts
  refine (StepKeeps.setOwn _).bind fun _ => ?_
  split
  · exact .pure false
  · next batch _ =>
    refine (StepKeeps.lift (aggregate_preserves heval hframe plan.aggregation batch)).bind fun value => ?_
    refine (StepKeeps.lift (judge_preserves heval hframe plan.verdict value)).bind fun verdict => ?_
    have hnote : Routine.Keeps I (Run.note (.judged name batch.length value verdict)) :=
      fun s hs => ⟨hjudged _ _ _ _ s hs, trivial⟩
    refine (StepKeeps.lift hnote).bind fun _ => ?_
    split
    · exact StepKeeps.own.bind fun own => (StepKeeps.setOwn _).bind fun _ => .pure verdict
    · exact .pure verdict

/-! ### Arrows and monitors -/

theorem arrow_preserves {plan : Arrow.Plan} (hfreed : Routine.Keeps I (Run.resetStates plan.owned)) :
    StepKeeps I (Arrow.run eval plan frame) := by
  unfold Arrow.run
  refine StepKeeps.own.bind fun own => ?_
  split
  · exact (StepKeeps.setOwn _).bind fun _ => .pure false
  · next stage _ =>
    have hheld := holds_preserves heval (hframe.anchored own.anchor) stage frame.event.value
    refine (StepKeeps.lift hheld).bind fun held => ?_
    refine .ite (.pure false) (.ite ((StepKeeps.setOwn _).bind fun _ => .pure false) ?_)
    exact (StepKeeps.setOwn _).bind fun _ => (StepKeeps.lift hfreed).bind fun _ => .pure true

theorem monitor_preserves (plan : Monitor.Plan) : StepKeeps I (Monitor.run eval plan frame) := by
  have hset : ∀ (state : Monitor.State) (answer : Bool),
      StepKeeps I (Step.setOwn state >>= fun _ => (pure answer : Step Monitor.State Bool)) :=
    fun state answer => (StepKeeps.setOwn state).bind fun _ => .pure answer
  unfold Monitor.run
  refine StepKeeps.own.bind fun own => ?_
  cases plan with
  | count condition times isStrict =>
    refine (StepKeeps.setOwn _).bind fun _ => ?_
    refine (StepKeeps.lift (holds_preserves heval hframe condition _)).bind fun held => ?_
    exact .ite (.ite (hset _ false) (.pure false)) (.ite (hset _ true) (hset _ false))
  | keep condition ms =>
    refine (StepKeeps.setOwn _).bind fun _ => ?_
    refine (StepKeeps.lift (holds_preserves heval hframe condition _)).bind fun held => ?_
    exact .ite (hset _ false) (.ite (hset _ true) (hset _ false))
  | delay ms =>
    refine (StepKeeps.setOwn _).bind fun _ => ?_
    exact .ite (hset _ true) (.ite (hset _ false) (.pure false))
  | slope condition unit =>
    refine (StepKeeps.setOwn _).bind fun _ => ?_
    unfold Monitor.runSlope
    split
    · exact .pure false
    · refine (StepKeeps.setOwn _).bind fun _ => ?_
      split
      · exact .pure false
      · exact .ite (.pure false) (StepKeeps.lift (holds_preserves heval hframe condition _))

end

/-! ### Fragments -/

/-- What is said of sessions does not depend on the fragments of other names than this one. -/
structure AboutOne (table : List Fragment) (name : String) (I : Session → Prop) : Prop where
  judged : ∀ chain count reduced verdict s, I s → I ⟨s.env, .judged chain count reduced verdict :: s.trace⟩
  entered : ∀ other s, other ≠ name → I s → I (s.entered other)
  put : ∀ other state s, other ≠ name → I s →
    I { s with env := { s.env with states := s.env.states.put other state } }
  freed : ∀ f ∈ table, ∀ plan, f.body = .arrow plan → f.name ≠ name →
    Routine.Keeps I (Run.resetStates plan.owned)

section

variable {base frame : Frame} {name : String} {I : Session → Prop} {eval : Evaluator}

theorem withState_preserves (h : AboutOne base.fragments name I) {State : Type} {other : String}
    (hother : other ≠ name) (wrap : State → FragmentState) (own : State) {step : Step State Bool}
    (hstep : StepKeeps I step) {s : Session} (hs : I s) :
    I ((withState other wrap own step).run ⟨s.env, .called other :: s.trace⟩).2 := by
  have hran := (hstep (own, s.entered other) (h.entered other s hother hs)).1
  exact h.put other _ _ hother hran

theorem fragment_preserves (h : AboutOne base.fragments name I) (heval : EvaluatorKeeps base I eval)
    (hframe : base.Like frame) {f : Fragment} (hf : f ∈ base.fragments) (hname : f.name ≠ name) :
    Routine.Keeps I (f.run eval frame) := by
  refine .of_runs fun s hs => ?_
  have hnoted : (Run.note (.called f.name)).run s = (.ok (), ⟨s.env, .called f.name :: s.trace⟩) := rfl
  rw [Fragment.run, run_bind_ok hnoted, run_bind_ok (run_state _)]
  dsimp only
  have hother : ∀ state : FragmentState,
      I ((withState f.name (fun _ => state) () (fail (.missingFragment f.name))).run
        ⟨s.env, .called f.name :: s.trace⟩).2 :=
    fun state => withState_preserves h hname _ () (Meets.fail trivial) hs
  split
  · exact withState_preserves h hname _ _ (chain_preserves heval hframe h.judged _ _) hs
  · next hbody _ =>
    exact withState_preserves h hname _ _
      (arrow_preserves heval hframe (h.freed f hf _ hbody hname)) hs
  · exact withState_preserves h hname _ _ (monitor_preserves heval hframe _) hs
  · exact hother _

variable (h : AboutOne base.fragments name I)
  (hown : ∀ f ∈ base.fragments, f.name = name → ∀ depth frame, base.Like frame →
    Routine.Keeps I (f.run (Code.evaluate (callFragment depth)) frame))
include h hown

theorem call_preserves (depth : Nat) (other : String) (index : Nat) (hframe : base.Like frame) :
    Routine.Keeps I (callFragment depth other index frame) := by
  induction depth generalizing other index frame with
  | zero => exact .fail _
  | succ depth ih =>
    have hfragments : frame.fragments = base.fragments := by
      obtain ⟨_, rfl⟩ := hframe
      rfl
    rw [callFragment]
    split
    · next f hf =>
      rw [hfragments] at hf
      have hmem := List.mem_of_getElem? hf
      split
      · by_cases hname : f.name = name
        · exact hown f hmem hname depth frame hframe
        · exact fragment_preserves h (code_preserves fun x i frame hframe => ih x i hframe) hframe hmem hname
      · exact .fail _
    · exact .fail _

theorem evaluate_preserves : EvaluatorKeeps base I evaluate := by
  intro code subject frame hframe
  exact code_preserves (fun x i frame hframe => call_preserves h hown _ x i hframe) code subject frame hframe

end

end EventRules
