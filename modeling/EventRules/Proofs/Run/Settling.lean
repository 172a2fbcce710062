import Mathlib.Tactic.Choose
import EventRules.Evaluation
import EventRules.Proofs.Lowering.Reference

/-!
# Code that calls nothing

Code without calls answers the same in every session, and leaves it as it is. If it asks no filter of
the host either, then its answer does not depend on the event, but on the value under test alone.
-/

namespace EventRules
set_option autoImplicit false

open Routine

/-- The routine answers the same in every state, and leaves it. -/
def Settles {α : Type} (m : Run α) (r : Except RunError α) : Prop := ∀ s, m.run s = (r, s)

namespace Settles

variable {α β : Type} {m : Run α} {r : Except RunError α}

protected theorem ofExcept (r : Except RunError α) : Settles (ofExcept r) r := fun _ => rfl

theorem pure (a : α) : Settles (Pure.pure a) (.ok a) := Settles.ofExcept (.ok a)

theorem bind {f : α → Run β} {q : α → Except RunError β} (h : Settles m r)
    (hf : ∀ a, Settles (f a) (q a)) : Settles (m >>= f) (r.bind q) := by
  intro s
  rw [run_bind, h s]
  cases r with
  | error e => rfl
  | ok a => exact hf a s

theorem map {f : α → β} (h : Settles m r) : Settles (f <$> m) (r.map f) := by
  intro s
  change (m >>= fun a => Pure.pure (f a)).run s = _
  rw [run_bind, h s]
  cases r with
  | error e => rfl
  | ok a => rfl

theorem lift {State : Type} (h : Settles m r) (own : State) (s : Session) :
    (Step.lift m).run (own, s) = (r, (own, s)) := by
  have hrun : m.run s = (r, s) := h s
  change ((m.run s).1, (own, (m.run s).2)) = _
  rw [hrun]

end Settles

theorem evaluate_settles {c : Code} (h : c.references = []) (subject : Value) (event : Event)
    (registry : Registry) : ∃ r, ∀ call anchor fragments,
      Settles (c.evaluate call subject ⟨event, anchor, fragments, registry⟩) r := by
  induction c with
  | literal v => exact ⟨_, fun _ _ _ => .pure v⟩
  | subject => exact ⟨_, fun _ _ _ => .pure subject⟩
  | binary op left right ihl ihr =>
    rw [Code.references, List.append_eq_nil_iff] at h
    obtain ⟨l, hl⟩ := ihl h.1
    obtain ⟨r, hr⟩ := ihr h.2
    have hcalculated : ∀ call anchor fragments, Settles (do
        let v ← left.evaluate call subject ⟨event, anchor, fragments, registry⟩
        let w ← right.evaluate call subject ⟨event, anchor, fragments, registry⟩
        Run.calculate (Value.binary op v w))
        (l.bind fun v => r.bind fun w => (Value.binary op v w).mapError .calculation) := by
      intro call anchor fragments
      refine (hl call anchor fragments).bind fun v => ?_
      exact (hr call anchor fragments).bind fun w => .ofExcept _
    cases op with
    | and =>
      refine ⟨l.bind fun v => if v.asBool then r.bind fun w => .ok (.boolean w.asBool)
        else .ok (.boolean false), ?_⟩
      intro call anchor fragments
      refine (hl call anchor fragments).bind ?_
      intro v
      cases v.asBool with
      | false => exact .pure _
      | true => exact (hr call anchor fragments).bind fun w => .pure _
    | or =>
      refine ⟨l.bind fun v => if v.asBool then .ok (.boolean true)
        else r.bind fun w => .ok (.boolean w.asBool), ?_⟩
      intro call anchor fragments
      refine (hl call anchor fragments).bind ?_
      intro v
      cases v.asBool with
      | false => exact (hr call anchor fragments).bind fun w => .pure _
      | true => exact .pure _
    | _ => exact ⟨_, hcalculated⟩
  | not inner ih =>
    obtain ⟨r, hr⟩ := ih h
    exact ⟨_, fun call anchor fragments => (hr call anchor fragments).bind fun v => .pure _⟩
  | step up operand ih =>
    obtain ⟨r, hr⟩ := ih h
    exact ⟨_, fun call anchor fragments => (hr call anchor fragments).bind fun v => .ofExcept _⟩
  | compare op operand ih =>
    obtain ⟨r, hr⟩ := ih h
    exact ⟨_, fun call anchor fragments => (hr call anchor fragments).bind fun v => .pure _⟩
  | call fragment index => cases h
  | filter extension =>
    refine ⟨((registry.filter extension).mapError RunError.extension).bind fun f =>
      .ok (.boolean (f { event with value := subject })), ?_⟩
    intro call anchor fragments
    exact (Settles.ofExcept _).bind fun f => .pure _

/-! ### Code that asks no filter -/

/-- The filters of the host that code asks about the event. -/
def Code.asked : Code → List String
  | literal _ | subject | call _ _ => []
  | binary _ left right => left.asked ++ right.asked
  | not inner => inner.asked
  | step _ operand => operand.asked
  | compare _ operand => operand.asked
  | filter extension => [extension]

/-- The filter of this name, if there is one, says the same of both events. -/
def Registry.Alike (registry : Registry) (name : String) (a b : Event) : Prop :=
  ∀ f, registry.filter name = .ok f → f a = f b

/-- Code that calls nothing evaluates alike on two events of which the filters that it asks say the same,
once these have the value under test. -/
theorem evaluate_of_filters_alike {c : Code} (h : c.references = [])
    (call : String → Nat → Frame → Run Bool) {subject : Value} {frame : Frame} {event : Event}
    (hasked : ∀ name ∈ c.asked, frame.registry.Alike name { event with value := subject }
      { frame.event with value := subject }) :
    c.evaluate call subject { frame with event := event } = c.evaluate call subject frame := by
  induction c with
  | literal v => rfl
  | subject => rfl
  | binary op left right ihl ihr =>
    rw [Code.references, List.append_eq_nil_iff] at h
    have hleft := ihl h.1 fun name hname => hasked name (List.mem_append_left _ hname)
    have hright := ihr h.2 fun name hname => hasked name (List.mem_append_right _ hname)
    cases op <;> simp only [Code.evaluate, hleft, hright]
  | not inner ih => simp only [Code.evaluate, ih h hasked]
  | step up operand ih => simp only [Code.evaluate, ih h hasked]
  | compare op operand ih => simp only [Code.evaluate, ih h hasked]
  | call fragment index => cases h
  | filter extension =>
    simp only [Code.evaluate]
    cases hf : frame.registry.filter extension with
    | error e => rfl
    | ok f =>
      have hsame := hasked extension List.mem_cons_self f hf
      change (pure (.boolean (f _)) : Run Value) = pure (.boolean (f _))
      rw [hsame]

theorem evaluate_event {c : Code} (h : c.references = []) (hasked : c.asked = [])
    (call : String → Nat → Frame → Run Bool) (subject : Value) (frame : Frame) (event : Event) :
    c.evaluate call subject { frame with event := event } = c.evaluate call subject frame := by
  apply evaluate_of_filters_alike h
  rw [hasked]
  exact nofun

/-- The evaluator evaluates code, whatever calls do. -/
def Evaluator.Evaluates (eval : Evaluator) : Prop :=
  ∀ code subject frame, ∃ call, eval code subject frame = code.evaluate call subject frame

theorem Code.evaluate_evaluates (call : String → Nat → Frame → Run Bool) :
    Evaluator.Evaluates (Code.evaluate call) := fun _ _ _ => ⟨call, rfl⟩

theorem evaluate_evaluates : Evaluator.Evaluates evaluate := fun _ _ _ => ⟨_, rfl⟩

theorem condition_settles {c : Code} (h : c.references = []) (subject : Value) (event : Event)
    (registry : Registry) : ∃ r, ∀ eval : Evaluator, eval.Evaluates → ∀ anchor fragments,
      Settles (eval.holds c subject ⟨event, anchor, fragments, registry⟩) r := by
  obtain ⟨r, hr⟩ := evaluate_settles h subject event registry
  refine ⟨r.map Value.asBool, ?_⟩
  intro eval heval anchor fragments
  obtain ⟨call, hcall⟩ := heval c subject ⟨event, anchor, fragments, registry⟩
  rw [Evaluator.holds, hcall]
  exact (hr call anchor fragments).map

/-- A condition that asks no filter settles to the same for all events. -/
theorem unasking_condition_settles {c : Code} (h : c.references = []) (hasked : c.asked = [])
    (registry : Registry) : ∃ r : Value → Except RunError Bool, ∀ eval : Evaluator, eval.Evaluates →
      ∀ subject event anchor fragments,
        Settles (eval.holds c subject ⟨event, anchor, fragments, registry⟩) (r subject) := by
  have heach := fun subject => evaluate_settles h subject ⟨"", subject, 0⟩ registry
  choose r hr using heach
  refine ⟨fun subject => (r subject).map Value.asBool, ?_⟩
  intro eval heval subject event anchor fragments
  obtain ⟨call, hcall⟩ := heval c subject ⟨event, anchor, fragments, registry⟩
  have hsame := evaluate_event h hasked call subject
    ⟨⟨"", subject, 0⟩, anchor, fragments, registry⟩ event
  rw [Evaluator.holds, hcall, hsame]
  exact (hr subject call anchor fragments).map

/-! ### Chains -/

/-- The filters of the host that the test asks beside being one. -/
def Test.asked : Test → List String
  | condition code => code.asked
  | extension _ => []

def Chain.Aggregation.asked : Chain.Aggregation → List String
  | hitRate condition => condition.asked
  | _ => []

namespace Chain

theorem checkTake_settles (name : String) (take : Option (Int64 × Option Int64)) :
    ∃ r, Settles (checkTake name take) r := by
  rw [checkTake.eq_def]
  split
  · split
    · exact ⟨.error _, .ofExcept _⟩
    · exact ⟨.ok (), .pure ()⟩
  · exact ⟨.ok (), .pure ()⟩

theorem admits_settles {tests : List Test} (h : ∀ t ∈ tests, t.references = []) (event : Event)
    (registry : Registry) : ∃ r, ∀ eval : Evaluator, eval.Evaluates → ∀ anchor fragments,
      Settles (admits eval ⟨event, anchor, fragments, registry⟩ tests) r := by
  induction tests with
  | nil => exact ⟨.ok true, fun _ _ _ _ => .pure true⟩
  | cons t ts ih =>
    obtain ⟨rest, hrest⟩ := ih fun t ht => h t (List.mem_cons_of_mem _ ht)
    have hsequence : ∀ {m : Run Bool} {r : Except RunError Bool}, Settles m r →
        ∀ eval : Evaluator, eval.Evaluates → ∀ anchor fragments,
          Settles (m >>= fun passed => if passed then
              admits eval ⟨event, anchor, fragments, registry⟩ ts else return false)
            (r.bind fun passed => if passed then rest else .ok false) := by
      intro m r hm eval heval anchor fragments
      refine hm.bind fun passed => ?_
      cases passed with
      | false => exact .pure false
      | true => exact hrest eval heval anchor fragments
    cases t with
    | condition code =>
      obtain ⟨r, hr⟩ := condition_settles (h _ List.mem_cons_self) event.value event registry
      exact ⟨_, fun eval heval anchor fragments =>
        hsequence (hr eval heval anchor fragments) eval heval anchor fragments⟩
    | extension name =>
      refine ⟨((registry.filter name).mapError RunError.extension).bind fun f =>
        (Except.ok (f event)).bind fun passed => if passed then rest else .ok false, ?_⟩
      intro eval heval anchor fragments
      refine (Settles.ofExcept ((registry.filter name).mapError RunError.extension)).bind fun f => ?_
      exact hsequence (.pure (f event)) eval heval anchor fragments

theorem countHits_settles {c : Code} (h : c.references = []) (hasked : c.asked = [])
    (registry : Registry) (batch : List Event) : ∃ r, ∀ eval : Evaluator, eval.Evaluates →
      ∀ event anchor fragments,
        Settles (countHits eval c ⟨event, anchor, fragments, registry⟩ batch) r := by
  obtain ⟨hit, hhit⟩ := unasking_condition_settles h hasked registry
  induction batch with
  | nil => exact ⟨.ok 0, fun _ _ _ _ _ => .pure 0⟩
  | cons e es ih =>
    obtain ⟨others, hothers⟩ := ih
    refine ⟨(hit e.value).bind fun b => others.bind fun n => .ok (if b then n + 1 else n), ?_⟩
    intro eval heval event anchor fragments
    refine (hhit eval heval e.value event anchor fragments).bind fun b => ?_
    exact (hothers eval heval event anchor fragments).bind fun n => .pure _

/-- What a batch is reduced to does not depend on the event that has come last. -/
theorem aggregate_settles {how : Aggregation} (h : how.references = []) (hasked : how.asked = [])
    (registry : Registry) : ∃ r : List Event → Except RunError Value, ∀ eval : Evaluator,
      eval.Evaluates → ∀ batch event anchor fragments,
        Settles (aggregate eval how batch ⟨event, anchor, fragments, registry⟩) (r batch) := by
  cases how with
  | hitRate condition =>
    choose hits hhits using countHits_settles h hasked registry
    refine ⟨fun batch => if batch.isEmpty then .ok (.integer 0)
      else (hits batch).bind fun n => .ok (.float (Float.ofNat n / Float.ofNat batch.length)), ?_⟩
    intro eval heval batch event anchor fragments
    rw [aggregate]
    dsimp only
    split
    · exact .pure _
    · exact (hhits batch eval heval event anchor fragments).bind fun n => .pure _
  | extension name =>
    exact ⟨fun batch => ((registry.calculator name).mapError RunError.extension).bind fun f =>
      .ok (.float (f batch)), fun _ _ _ _ _ _ => (Settles.ofExcept _).bind fun f => .pure _⟩
  | _ => exact ⟨fun _ => .ok _, fun _ _ _ _ _ _ => .pure _⟩

theorem judge_settles {verdict : Test} (h : verdict.references = []) (hasked : verdict.asked = [])
    (registry : Registry) : ∃ r : Value → Except RunError Bool, ∀ eval : Evaluator, eval.Evaluates →
      ∀ reduced event anchor fragments,
        Settles (judge eval ⟨event, anchor, fragments, registry⟩ verdict reduced) (r reduced) := by
  cases verdict with
  | condition code => exact unasking_condition_settles h hasked registry
  | extension name =>
    exact ⟨fun reduced => ((registry.meet name).mapError RunError.extension).bind fun f =>
      .ok (f (reduced.toNumber?.getD 0)), fun _ _ _ _ _ _ => (Settles.ofExcept _).bind fun f => .pure _⟩

end Chain

end EventRules
