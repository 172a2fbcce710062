import Mathlib.Data.List.Flatten
import EventRules.Proofs.Run.Footprint

/-!
# Evaluation keeps to its footprint

Each part of the evaluator keeps to the calls that stand in the code it is given: code, the filters, the
reduction and the verdict of a chain, arrows, monitors, and by induction on the depth of the calls the
fragments that are called. An arrow that answers true takes away the states of what it owns, and those
are within its reach.
-/

namespace EventRules
set_option autoImplicit false

open Routine CallLog

/-- From every session the routine makes the calls in the log, and keeps to the calls `refs`. -/
def KeepsTo {α : Type} (table : List Fragment) (refs : List Reference) (log : CallLog) (m : Run α) :
    Prop :=
  ∀ s, Footprint table (fun _ => False) refs (log s) s (m.run s).2

variable {α β : Type} {table : List Fragment} {refs refs' : List Reference} {log : CallLog}

namespace KeepsTo

variable {m : Run α}

protected theorem ofExcept (r : Except RunError α) : KeepsTo table [] silent (ofExcept r) :=
  fun s => .refl table _ s

theorem pure (a : α) : KeepsTo table [] silent (Pure.pure a) := KeepsTo.ofExcept (.ok a)

theorem weaken (h : KeepsTo table refs log m) (hrefs : refs.Sublist refs') :
    KeepsTo table refs' log m :=
  fun s => (h s).weaken hrefs fun _ => id

/-- What makes no call keeps to any calls. -/
theorem quiet (h : KeepsTo table [] log m) : KeepsTo table refs log m := h.weaken (List.nil_sublist refs)

theorem bind {rest : α → CallLog} {f : α → Run β} (h : KeepsTo table refs log m)
    (hf : ∀ a, KeepsTo table refs' (rest a) (f a)) :
    KeepsTo table (refs ++ refs') (log.followed m rest) (m >>= f) := by
  intro s
  have hs := h s
  rw [run_bind, followed]
  cases hm : m.run s with
  | mk r t =>
    rw [hm] at hs
    cases r with
    | ok a => exact hs.trans (hf a t)
    | error e =>
      rw [List.append_nil]
      exact hs.weaken (List.sublist_append_left refs refs') fun _ => id

/-- A second part that makes no calls is left out of the log. -/
theorem bind_quiet {f : α → Run β} (h : KeepsTo table refs log m)
    (hf : ∀ a, KeepsTo table [] silent (f a)) : KeepsTo table refs log (m >>= f) := by
  intro s
  have hs := h s
  rw [run_bind]
  cases hm : m.run s with
  | mk r t =>
    rw [hm] at hs
    cases r with
    | ok a =>
      have ht := hs.trans (hf a t)
      rwa [silent, List.append_nil, List.append_nil] at ht
    | error e => exact hs

/-- What is asked for a hit rate keeps to its condition, however often that is asked. -/
theorem repeated (h : KeepsTo table refs log m) (hsub : refs ⊆ refs')
    (hrepeated : ∀ x, Called table refs' x → Repeated table x) : KeepsTo table refs' log m :=
  fun s => (h s).repeated hsub hrepeated

theorem ite {p : Prop} [Decidable p] {log' : CallLog} {m' : Run α} (h : KeepsTo table refs log m)
    (h' : KeepsTo table refs log' m') :
    KeepsTo table refs (if p then log else log') (if p then m else m') := by
  split
  · exact h
  · exact h'

end KeepsTo

/-! ### Steps -/

/-- A step that begins with the state `own` of a fragment, as it acts on the session. -/
def Step.begun {State : Type} (m : Step State α) (own : State) : Run α := fun s =>
  ((m.run (own, s)).1, (m.run (own, s)).2.2)

theorem Step.run_lift {State : Type} (m : Run α) (own : State) (s : Session) :
    (Step.lift m).run (own, s) = ((m.run s).1, (own, (m.run s).2)) := rfl

theorem Step.begun_lift_bind {State : Type} (m : Run α) (f : α → Step State β) (own : State) :
    (Step.lift m >>= f).begun own = m >>= fun a => (f a).begun own := by
  funext s
  change (((Step.lift m >>= f).run (own, s)).1, ((Step.lift m >>= f).run (own, s)).2.2) = run _ s
  rw [run_bind, run_bind, Step.run_lift]
  cases m.run s with
  | mk r t =>
    cases r with
    | ok a => rfl
    | error e => rfl

namespace KeepsTo

variable {State : Type} {own own' : State}

theorem own_bind {f : State → Step State α} (h : KeepsTo table refs log ((f own).begun own)) :
    KeepsTo table refs log ((Step.own >>= f).begun own) := h

theorem setOwn_bind {f : Unit → Step State α} (h : KeepsTo table refs log ((f ()).begun own')) :
    KeepsTo table refs log ((Step.setOwn own' >>= f).begun own) := h

theorem lift_bind {m : Run α} {rest : α → CallLog} {f : α → Step State β}
    (h : KeepsTo table refs log m) (hf : ∀ a, KeepsTo table refs' (rest a) ((f a).begun own)) :
    KeepsTo table (refs ++ refs') (log.followed m rest) ((Step.lift m >>= f).begun own) := by
  rw [Step.begun_lift_bind]
  exact h.bind hf

theorem quiet_lift_bind {m : Run α} {rest : α → CallLog} {f : α → Step State β}
    (h : KeepsTo table [] log m) (hf : ∀ a, KeepsTo table refs (rest a) ((f a).begun own)) :
    KeepsTo table refs (log.followed m rest) ((Step.lift m >>= f).begun own) := by
  have hkept := lift_bind h hf
  exact hkept

theorem lift_bind_quiet {m : Run α} {f : α → Step State β} (h : KeepsTo table refs log m)
    (hf : ∀ a, KeepsTo table [] silent ((f a).begun own)) :
    KeepsTo table refs log ((Step.lift m >>= f).begun own) := by
  rw [Step.begun_lift_bind]
  exact h.bind_quiet hf

theorem begun_ite {p : Prop} [Decidable p] {m m' : Step State α}
    (h : KeepsTo table refs log (m.begun own)) (h' : KeepsTo table refs log (m'.begun own)) :
    KeepsTo table refs log ((if p then m else m').begun own) := by
  split
  · exact h
  · exact h'

end KeepsTo

/-! ### Code -/

/-- Calls keep to themselves. -/
def CallsKeep (table : List Fragment) (call : String → Nat → Frame → Run Bool)
    (calls : String → Nat → Frame → CallLog) : Prop :=
  ∀ name index frame, frame.fragments = table →
    KeepsTo table [⟨name, index⟩] (calls name index frame) (call name index frame)

/-- Evaluations keep to the calls in the code. -/
def CodeKeeps (table : List Fragment) (eval : Evaluator) (log : EvaluatorLog) : Prop :=
  ∀ code subject frame, frame.fragments = table →
    KeepsTo table code.references (log code subject frame) (eval code subject frame)

theorem codeKeeps {call : String → Nat → Frame → Run Bool} {calls : String → Nat → Frame → CallLog}
    (h : CallsKeep table call calls) : CodeKeeps table (Code.evaluate call) (Code.log call calls) := by
  intro c subject frame hframe
  induction c with
  | literal v => exact .pure v
  | subject => exact .pure subject
  | binary op left right ihl ihr =>
    have hright : ∀ f : Value → Value, KeepsTo table right.references
        (right.log call calls subject frame)
        (right.evaluate call subject frame >>= fun v => Pure.pure (f v)) :=
      fun f => ihr.bind_quiet fun v => .pure (f v)
    cases op with
    | and => exact ihl.bind fun v => .ite (.quiet (.pure _)) (hright fun w => .boolean w.asBool)
    | or => exact ihl.bind fun v => .ite (.quiet (.pure _)) (hright fun w => .boolean w.asBool)
    | _ => exact ihl.bind fun v => ihr.bind_quiet fun w => .ofExcept _
  | not inner ih => exact ih.bind_quiet fun v => .pure _
  | step up operand ih => exact ih.bind_quiet fun v => .ofExcept _
  | compare op operand ih => exact ih.bind_quiet fun v => .pure _
  | call fragment index => exact (h fragment index frame hframe).bind_quiet fun b => .pure _
  | filter extension =>
    exact (KeepsTo.ofExcept _).bind_quiet fun f => .pure _

section

variable {eval : Evaluator} {elog : EvaluatorLog} {frame : Frame}

theorem holds_keeps (h : CodeKeeps table eval elog) (hframe : frame.fragments = table) (c : Code)
    (subject : Value) :
    KeepsTo table c.references (elog c subject frame) (eval.holds c subject frame) :=
  (h c subject frame hframe).bind_quiet fun v => .pure v.asBool

/-! ### Chains -/

theorem bind_decided (m : Run α) (test : α → Bool) (next : Run Bool) :
    (m >>= fun a => if test a then next else pure false) =
      (m >>= fun a => if test a then pure true else pure false) >>= fun passed =>
        if passed then next else pure false := by
  funext s
  change run _ s = run _ s
  rw [run_bind, run_bind, run_bind]
  cases m.run s with
  | mk r t =>
    cases r with
    | ok a => cases h : test a <;> simp [h]
    | error e => rfl

theorem admits_cons (eval : Evaluator) (frame : Frame) (test : Test) (tests : List Test) :
    Chain.admits eval frame (test :: tests) =
      Chain.admits eval frame [test] >>= fun passed =>
        if passed then Chain.admits eval frame tests else pure false := by
  cases test with
  | condition code => exact bind_decided (eval.holds code frame.event.value frame) id _
  | extension name =>
    exact bind_decided (Run.extension (frame.registry.filter name)) (fun f => f frame.event) _

theorem admits_keeps (h : CodeKeeps table eval elog) (hframe : frame.fragments = table)
    (tests : List Test) :
    KeepsTo table (tests.flatMap Test.references) (Chain.admitsLog eval elog frame tests)
      (Chain.admits eval frame tests) := by
  have hdecided : ∀ b : Bool, KeepsTo table [] silent
      (if b then Chain.admits eval frame [] else pure false) := by
    intro b
    cases b with
    | false => exact .pure false
    | true => exact .pure true
  induction tests with
  | nil => exact .pure true
  | cons test tests ih =>
    rw [admits_cons]
    refine KeepsTo.bind ?_ fun passed => .ite ih (.quiet (.pure false))
    cases test with
    | condition code => exact (holds_keeps h hframe code _).bind_quiet hdecided
    | extension name => exact (KeepsTo.ofExcept _).bind_quiet fun f => hdecided (f frame.event)

theorem count_keeps (h : CodeKeeps table eval elog) (hframe : frame.fragments = table) (c : Code)
    (batch : List Event) :
    KeepsTo table (batch.flatMap fun _ => c.references) (Chain.countLog eval elog c frame batch)
      (Chain.countHits eval c frame batch) := by
  induction batch with
  | nil => exact .pure 0
  | cons e es ih =>
    exact (holds_keeps h hframe c e.value).bind fun hit => ih.bind_quiet fun others => .pure _

theorem aggregate_keeps (h : CodeKeeps table eval elog) (hframe : frame.fragments = table)
    {how : Chain.Aggregation} (hrepeated : ∀ condition, how = .hitRate condition →
      ∀ x, Called table condition.references x → Repeated table x) (batch : List Event) :
    KeepsTo table how.references (Chain.aggregateLog eval elog how batch frame)
      (Chain.aggregate eval how batch frame) := by
  cases how with
  | hitRate condition =>
    cases batch with
    | nil => exact .quiet (.pure _)
    | cons e es =>
      have hcount := (count_keeps h hframe condition (e :: es)).bind_quiet fun hits =>
        .pure (Value.float (Float.ofNat hits / Float.ofNat (e :: es).length))
      refine hcount.repeated ?_ (hrepeated condition rfl)
      intro r hr
      obtain ⟨_, -, hr⟩ := List.mem_flatMap.mp hr
      exact hr
  | extension name => exact (KeepsTo.ofExcept _).bind_quiet fun f => .pure _
  | _ => exact .pure _

theorem judge_keeps (h : CodeKeeps table eval elog) (hframe : frame.fragments = table)
    (verdict : Test) (reduced : Value) :
    KeepsTo table verdict.references (verdict.log elog reduced frame)
      (Chain.judge eval frame verdict reduced) := by
  cases verdict with
  | condition code => exact holds_keeps h hframe code reduced
  | extension name => exact (KeepsTo.ofExcept _).bind_quiet fun f => .pure _

theorem checkTake_keeps (name : String) (take : Option (Int64 × Option Int64)) :
    KeepsTo table [] silent (Chain.checkTake name take) := by
  rw [Chain.checkTake.eq_def]
  split
  · split
    · exact .ofExcept (.error _)
    · exact .pure ()
  · exact .pure ()

theorem judged_keeps (chain : String) (count : Nat) (reduced : Value) (verdict : Bool) :
    KeepsTo table [] silent (Run.note (.judged chain count reduced verdict)) :=
  fun s => (Footprint.refl table _ s).judged chain count reduced verdict

theorem chain_keeps (h : CodeKeeps table eval elog) (hframe : frame.fragments = table)
    {plan : Chain.Plan} (hrepeated : ∀ condition, plan.aggregation = .hitRate condition →
      ∀ x, Called table condition.references x → Repeated table x) (name : String)
    (own : Chain.State) :
    KeepsTo table plan.references (Chain.log eval elog name plan frame own)
      ((Chain.run eval name plan frame).begun own) := by
  rw [Chain.Plan.references, List.append_assoc, Chain.run]
  refine .quiet_lift_bind (checkTake_keeps name plan.take) fun _ => ?_
  refine .lift_bind (admits_keeps h hframe plan.filters) fun admitted => ?_
  refine .own_bind ?_
  dsimp only
  generalize Chain.retain plan.sampler own.retained frame.event admitted = parts
  refine .setOwn_bind ?_
  cases parts.2.bind (Chain.takeFrom plan.take) with
  | none => exact .quiet (.pure false)
  | some batch =>
    refine .lift_bind (aggregate_keeps h hframe hrepeated batch) fun value => ?_
    refine .lift_bind_quiet (judge_keeps h hframe plan.verdict value) fun verdict => ?_
    refine .lift_bind_quiet (judged_keeps name batch.length value verdict) fun _ => ?_
    cases verdict && plan.clears with
    | false => exact .pure verdict
    | true => exact .own_bind (.setOwn_bind (.pure verdict))

/-! ### Arrows and monitors -/

/-- What an arrow comes to when its stage has answered `r` and left the session `t`. -/
def Arrow.Plan.advance (plan : Arrow.Plan) (now : Int64) (own : Arrow.State) (t : Session) :
    Except RunError Bool → Except RunError Bool × (Arrow.State × Session)
  | .error e => (.error e, (own, t))
  | .ok false => (.ok false, (own, t))
  | .ok true =>
    if own.pointer + 1 < plan.stages.length then (.ok false, (⟨own.pointer + 1, some now⟩, t))
    else (.ok true, (.initial, ⟨plan.owned.foldl Environment.resetState t.env, t.trace⟩))

theorem arrow_run_advance {plan : Arrow.Plan} {own : Arrow.State} {stage : Code} {s t : Session}
    {r : Except RunError Bool} (hstage : plan.stages[own.pointer]? = some stage)
    (hr : (eval.holds stage frame.event.value { frame with anchor := own.anchor }).run s = (r, t)) :
    (Arrow.run eval plan frame).run (own, s) = plan.advance frame.event.timestamp own t r := by
  rw [Arrow.run, run_bind_ok (rfl : Step.own.run (own, s) = (.ok own, (own, s))), hstage]
  dsimp only
  rw [run_bind, Step.run_lift, hr]
  cases r with
  | error e => rfl
  | ok held =>
    cases held with
    | false => rfl
    | true =>
      simp only [Bool.not_true, Bool.false_eq_true, if_false, Arrow.Plan.advance]
      split
      · rfl
      · rfl

theorem advance_keeps {plan : Arrow.Plan} (howned : ∀ x ∈ plan.owned, Called table plan.references x)
    {calls : List CallRecord} {s t : Session} (hrefs : refs.Sublist plan.references)
    (h : Footprint table (fun _ => False) refs calls s t) (now : Int64) (own : Arrow.State)
    (r : Except RunError Bool) :
    Footprint table (fun x => (plan.advance now own t r).1 = .ok true ∧ x ∈ plan.owned) plan.references
      calls s (plan.advance now own t r).2.2 := by
  have hstay : Footprint table (fun x => (plan.advance now own t r).1 = .ok true ∧ x ∈ plan.owned)
      plan.references calls s t := h.weaken hrefs fun _ => False.elim
  cases r with
  | error e => exact hstay
  | ok held =>
    cases held with
    | false => exact hstay
    | true =>
      rw [Arrow.Plan.advance] at hstay ⊢
      by_cases hlast : own.pointer + 1 < plan.stages.length
      · rw [if_pos hlast] at hstay ⊢
        exact hstay
      · rw [if_neg hlast]
        refine ((h.weaken hrefs fun _ => id).reset howned).weaken (List.Sublist.refl _) ?_
        intro x hx
        exact ⟨rfl, hx.resolve_left id⟩

theorem arrow_keeps (h : CodeKeeps table eval elog) (hframe : frame.fragments = table)
    {plan : Arrow.Plan} (howned : ∀ x ∈ plan.owned, Called table plan.references x)
    (own : Arrow.State) (s : Session) :
    Footprint table
      (fun x => ((Arrow.run eval plan frame).run (own, s)).1 = .ok true ∧ x ∈ plan.owned)
      plan.references (Arrow.log elog plan frame own s) s
      ((Arrow.run eval plan frame).run (own, s)).2.2 := by
  cases hstage : plan.stages[own.pointer]? with
  | none =>
    have hrun : (Arrow.run eval plan frame).run (own, s) = (.ok false, (.initial, s)) := by
      rw [Arrow.run, run_bind_ok (rfl : Step.own.run (own, s) = (.ok own, (own, s))), hstage]
      rfl
    rw [hrun, Arrow.log, hstage]
    exact (Footprint.refl table _ s).weaken (List.nil_sublist _) fun _ => id
  | some stage =>
    have hrefs : stage.references.Sublist plan.references := by
      have hmem := List.singleton_sublist.mpr (List.mem_of_getElem? hstage)
      have hsub := hmem.flatMap Code.references
      rwa [List.flatMap_singleton] at hsub
    have hanchored : ({ frame with anchor := own.anchor } : Frame).fragments = table := hframe
    have hs := holds_keeps h hanchored stage frame.event.value s
    rw [Arrow.log, hstage]
    cases hm : (eval.holds stage frame.event.value { frame with anchor := own.anchor }).run s with
    | mk r t =>
      rw [hm] at hs
      rw [arrow_run_advance hstage hm]
      exact advance_keeps howned hrefs hs frame.event.timestamp own r

theorem slope_keeps (h : CodeKeeps table eval elog) (hframe : frame.fragments = table) (condition : Code)
    (unit : Int64) (previous : Option (Float × Int64)) (own : Monitor.State) :
    KeepsTo table condition.references
      (match Monitor.change? unit previous frame.event with
        | none => silent
        | some change => elog condition (.float change) frame)
      ((Monitor.runSlope eval condition unit previous frame).begun own) := by
  rw [Monitor.runSlope, Monitor.change?]
  cases frame.event.value.toNumber? with
  | none => exact .quiet (.pure false)
  | some current =>
    refine .setOwn_bind ?_
    cases previous with
    | none => exact .quiet (.pure false)
    | some reading =>
      by_cases helapsed : Number.subClamped frame.event.timestamp reading.2 = 0
      · simp only [helapsed, if_true, Option.bind_eq_bind, Option.bind_some]
        exact .quiet (.pure false)
      · simp only [helapsed, if_false, Option.bind_eq_bind, Option.bind_some]
        exact holds_keeps h hframe condition _

theorem monitor_keeps (h : CodeKeeps table eval elog) (hframe : frame.fragments = table)
    (plan : Monitor.Plan) (own : Monitor.State) :
    KeepsTo table plan.references (Monitor.log elog plan frame own)
      ((Monitor.run eval plan frame).begun own) := by
  have hset : ∀ {own state : Monitor.State} (answer : Bool), KeepsTo table [] silent
      ((Step.setOwn state >>= fun _ => (pure answer : Step Monitor.State Bool)).begun own) :=
    fun answer => .setOwn_bind (.pure answer)
  refine .own_bind ?_
  cases plan with
  | count condition times isStrict =>
    refine .setOwn_bind (.lift_bind_quiet (holds_keeps h hframe condition _) fun held => ?_)
    refine .begun_ite ?_ (.begun_ite (hset true) (hset false))
    exact .begun_ite (hset false) (.pure false)
  | keep condition ms =>
    refine .setOwn_bind (.lift_bind_quiet (holds_keeps h hframe condition _) fun held => ?_)
    exact .begun_ite (hset false) (.begun_ite (hset true) (hset false))
  | delay ms =>
    refine .setOwn_bind ?_
    rw [Monitor.runDelay]
    exact .begun_ite (hset true) (.begun_ite (hset false) (.pure false))
  | slope condition unit =>
    exact .setOwn_bind (slope_keeps h hframe condition unit _ _)

/-! ### Fragments -/

/-- Names find one fragment, and arrows own fragments within their reach only. -/
structure Orderly (table : List Fragment) : Prop where
  names : (table.map Fragment.name).Nodup
  owned : ∀ f ∈ table, ∀ plan, f.body = .arrow plan → ∀ x ∈ plan.owned, Called table plan.references x

theorem WellPlaced.orderly (h : WellPlaced table) (hnames : (table.map Fragment.name).Nodup) :
    Orderly table where
  names := hnames
  owned := by
    intro f hf plan hplan x hx
    obtain ⟨i, hi⟩ := List.mem_iff_getElem?.mp hf
    exact ((h.ownsReached hnames hi hplan).2.1 x).mp hx

theorem withState_keeps {State : Type} (hnames : (table.map Fragment.name).Nodup) {i : Nat}
    {f : Fragment} (hf : table[i]? = some f) (wrap : State → FragmentState) (own : State)
    (step : Step State Bool) (calls : List CallRecord) (s : Session)
    (h : Footprint table
      (fun x => (step.run (own, s.entered f.name)).1 = .ok true ∧ OwnedBy table f.name x)
      f.references calls (s.entered f.name) (step.run (own, s.entered f.name)).2.2) :
    Footprint table (fun _ => False) [⟨f.name, i⟩]
      (⟨f.name, ((withState f.name wrap own step).run ⟨s.env, .called f.name :: s.trace⟩).1⟩ :: calls) s
      ((withState f.name wrap own step).run ⟨s.env, .called f.name :: s.trace⟩).2 :=
  h.call hnames hf

/-- A state of another kind makes no calls, and is put back as it was. -/
theorem other_state_keeps (hnames : (table.map Fragment.name).Nodup) {i : Nat} {f : Fragment}
    (hf : table[i]? = some f) (state : FragmentState) (s : Session) :
    Footprint table (fun _ => False) [⟨f.name, i⟩]
      [⟨f.name, ((withState f.name (fun _ => state) () (fail (.missingFragment f.name))).run
        ⟨s.env, .called f.name :: s.trace⟩).1⟩] s
      ((withState f.name (fun _ => state) () (fail (.missingFragment f.name))).run
        ⟨s.env, .called f.name :: s.trace⟩).2 := by
  refine withState_keeps hnames hf (fun _ => state) () (fail (.missingFragment f.name)) [] s ?_
  exact (Footprint.refl table _ (s.entered f.name)).weaken (List.nil_sublist _) fun _ => id

theorem fragment_keeps (htable : Orderly table) (h : CodeKeeps table eval elog)
    (hframe : frame.fragments = table) {i : Nat} {f : Fragment} (hf : table[i]? = some f) (s : Session) :
    Footprint table (fun _ => False) [⟨f.name, i⟩]
      (⟨f.name, ((f.run eval frame).run s).1⟩ :: f.log eval elog frame s) s
      ((f.run eval frame).run s).2 := by
  have hmem := List.mem_of_getElem? hf
  have hnoted : (Run.note (.called f.name)).run s = (.ok (), ⟨s.env, .called f.name :: s.trace⟩) :=
    rfl
  rw [Fragment.run, run_bind_ok hnoted, run_bind_ok (run_state _), Fragment.log]
  dsimp only
  have hother := fun state => other_state_keeps htable.names hf state s
  have hrefs : f.references = f.body.references := rfl
  cases hbody : f.body with
  | chain plan =>
    generalize (s.env.states.get? f.name).getD (FragmentBody.chain plan).initial = state
    cases state with
    | chain own =>
      refine withState_keeps htable.names hf _ own _ _ s ?_
      have hrepeated : ∀ condition, plan.aggregation = .hitRate condition →
          ∀ x, Called table condition.references x → Repeated table x :=
        fun condition hcondition x hx => ⟨f, hmem, plan, condition, hbody, hcondition, hx⟩
      rw [hrefs, hbody]
      exact (chain_keeps h hframe hrepeated f.name own _).freeing
    | arrow own => exact hother _
    | monitor own => exact hother _
  | arrow plan =>
    generalize (s.env.states.get? f.name).getD (FragmentBody.arrow plan).initial = state
    cases state with
    | chain own => exact hother _
    | arrow own =>
      refine withState_keeps htable.names hf _ own _ _ s ?_
      rw [hrefs, hbody]
      refine (arrow_keeps h hframe (htable.owned f hmem plan hbody) own _).weaken (List.Sublist.refl _) ?_
      intro x hx
      exact ⟨hx.1, f, hmem, rfl, plan, hbody, hx.2⟩
    | monitor own => exact hother _
  | monitor plan =>
    generalize (s.env.states.get? f.name).getD (FragmentBody.monitor plan).initial = state
    cases state with
    | chain own => exact hother _
    | arrow own => exact hother _
    | monitor own =>
      refine withState_keeps htable.names hf _ own _ _ s ?_
      rw [hrefs, hbody]
      exact (monitor_keeps h hframe plan own _).freeing

theorem call_keeps (htable : Orderly table) (depth : Nat) :
    CallsKeep table (callFragment depth) (callLog depth) := by
  induction depth with
  | zero => exact fun name index frame _ => .quiet (.ofExcept (.error _))
  | succ depth ih =>
    intro name index frame hframe
    rw [callFragment, callLog, hframe]
    have hmissing : KeepsTo table [⟨name, index⟩] silent (fail (.missingFragment name) : Run Bool) :=
      .quiet (.ofExcept (.error _))
    cases hf : table[index]? with
    | none => exact hmissing
    | some f =>
      dsimp only
      by_cases hname : f.name = name
      · rw [if_pos hname, if_pos hname]
        subst hname
        exact fragment_keeps htable (codeKeeps ih) hframe hf
      · rw [if_neg hname, if_neg hname]
        exact hmissing

theorem evaluate_keeps (htable : Orderly table) : CodeKeeps table evaluate evaluateLog := by
  intro code subject frame hframe
  exact codeKeeps (call_keeps htable frame.fragments.length) code subject frame hframe

end

end EventRules
