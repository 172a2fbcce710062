import EventRules.Proofs.Run.Settling

/-!
# What a hit rate counts

The condition of a hit rate is asked for every retained event, and tests its reading. But it is asked in
the view of the event that has come: a filter of the host is not shown the retained event, but one that
stands in for it, which has its reading and the name and the time of the event that has come. So the
rate is that of the stand-ins, and it is that of the retained events themselves if the filters do not
tell them apart.
-/

namespace EventRules
set_option autoImplicit false

open Routine

/-- What a filter of the host is shown in place of a retained event. -/
def Frame.standIn (frame : Frame) (e : Event) : Event := { frame.event with value := e.value }

/-- What a condition answers about an event that is seen by itself. -/
def Code.answer (c : Code) (registry : Registry) (e : Event) : Except RunError Bool :=
  ((Evaluator.holds EventRules.evaluate c e.value ⟨e, none, [], registry⟩).run ⟨.empty, []⟩).1

/-- The number of events of which the condition holds, each seen by itself. -/
def Code.hits (c : Code) (registry : Registry) (events : List Event) : Nat :=
  events.countP fun e => c.answer registry e == .ok true

section

variable {c : Code} {registry : Registry} {frame : Frame} {eval : Evaluator}

theorem answer_settles (h : c.references = []) (heval : eval.Evaluates) (e : Event)
    (anchor : Option Int64) (fragments : List Fragment) :
    Settles (eval.holds c e.value ⟨e, anchor, fragments, registry⟩) (c.answer registry e) := by
  obtain ⟨r, hr⟩ := condition_settles h e.value e registry
  have hanswer : c.answer registry e = r :=
    congrArg Prod.fst (hr evaluate evaluate_evaluates none [] ⟨.empty, []⟩)
  rw [hanswer]
  exact hr eval heval anchor fragments

theorem answer_alike (h : c.references = []) {a b : Event} (hvalue : a.value = b.value)
    (hasked : ∀ name ∈ c.asked, registry.Alike name a b) : c.answer registry a = c.answer registry b := by
  obtain ⟨x, v, t⟩ := a
  obtain ⟨y, w, u⟩ := b
  obtain rfl : v = w := hvalue
  let seen : Frame := ⟨⟨y, v, u⟩, none, [], registry⟩
  have hsame : evaluate c v { seen with event := ⟨x, v, t⟩ } = evaluate c v seen :=
    evaluate_of_filters_alike h (callFragment 0) hasked
  exact congrArg (fun m : Run Value => ((Value.asBool <$> m).run ⟨.empty, []⟩).1) hsame

/-- The answer about a retained event is that about its stand-in. -/
theorem holds_of_standIn (h : c.references = []) (heval : eval.Evaluates) (e : Event) :
    Settles (eval.holds c e.value frame) (c.answer frame.registry (frame.standIn e)) := by
  obtain ⟨call, hcall⟩ := heval c e.value frame
  have hshown : c.evaluate call e.value { frame with event := frame.standIn e } =
      c.evaluate call e.value frame :=
    evaluate_of_filters_alike h call fun _ _ _ _ => rfl
  have hsettles : Settles (Evaluator.holds (Code.evaluate call) c e.value
      { frame with event := frame.standIn e }) (c.answer frame.registry (frame.standIn e)) :=
    answer_settles h (Code.evaluate_evaluates call) (frame.standIn e) frame.anchor frame.fragments
  unfold Evaluator.holds at hsettles ⊢
  rw [hcall, ← hshown]
  exact hsettles

end

namespace Chain

variable {c : Code} {frame : Frame} {eval : Evaluator}

theorem countHits_of_standIns (h : c.references = []) (heval : eval.Evaluates) {batch : List Event}
    (hanswers : ∀ e ∈ batch, ∃ hit, c.answer frame.registry (frame.standIn e) = .ok hit) :
    Settles (countHits eval c frame batch)
      (.ok (c.hits frame.registry (batch.map frame.standIn))) := by
  induction batch with
  | nil => exact .pure 0
  | cons e es ih =>
    obtain ⟨hit, hhit⟩ := hanswers e List.mem_cons_self
    have hholds : Settles (eval.holds c e.value frame) (.ok hit) := hhit ▸ holds_of_standIn h heval e
    have hothers := ih fun e he => hanswers e (List.mem_cons_of_mem _ he)
    have hcount : c.hits frame.registry ((e :: es).map frame.standIn) =
        if hit then c.hits frame.registry (es.map frame.standIn) + 1
        else c.hits frame.registry (es.map frame.standIn) := by
      unfold Code.hits
      rw [List.map_cons, List.countP_cons, hhit]
      cases hit <;> rfl
    rw [hcount]
    exact hholds.bind fun hit => hothers.bind fun others => .pure _

/-- The stand-ins count like the retained events, if the filters do not tell them apart. -/
theorem hits_of_stand_ins (h : c.references = []) {batch : List Event}
    (halike : ∀ e ∈ batch, ∀ name ∈ c.asked, frame.registry.Alike name (frame.standIn e) e) :
    c.hits frame.registry (batch.map frame.standIn) = c.hits frame.registry batch := by
  unfold Code.hits
  rw [List.countP_map]
  apply List.countP_congr
  intro e he
  have hanswer : c.answer frame.registry (frame.standIn e) = c.answer frame.registry e :=
    answer_alike h rfl (halike e he)
  simp only [Function.comp_apply, hanswer]

/-- The rate is that of the stand-ins of the retained events. For filters that look at the reading only,
or do not tell the stand-ins apart from the retained events otherwise, it is that of the retained events
themselves, whatever event has come. -/
theorem hitRate_of_standIns (h : c.references = []) (frame : Frame) {batch : List Event}
    (hbatch : batch ≠ [])
    (hanswers : ∀ e ∈ batch, ∃ hit, c.answer frame.registry (frame.standIn e) = .ok hit) (s : Session) :
    (aggregate evaluate (.hitRate c) batch frame).run s =
      (.ok (.float (Float.ofNat (c.hits frame.registry (batch.map frame.standIn)) /
        Float.ofNat batch.length)), s) ∧
    ((∀ e ∈ batch, ∀ name ∈ c.asked, frame.registry.Alike name (frame.standIn e) e) →
      (aggregate evaluate (.hitRate c) batch frame).run s =
        (.ok (.float (Float.ofNat (c.hits frame.registry batch) / Float.ofNat batch.length)), s)) := by
  have hrate : Settles (aggregate evaluate (.hitRate c) batch frame) (.ok (.float
      (Float.ofNat (c.hits frame.registry (batch.map frame.standIn)) / Float.ofNat batch.length))) := by
    have hempty : batch.isEmpty = false := List.isEmpty_eq_false_iff.mpr hbatch
    simp only [aggregate, hempty, Bool.false_eq_true, if_false]
    exact (countHits_of_standIns h evaluate_evaluates hanswers).bind fun n => .pure _
  refine ⟨hrate s, ?_⟩
  intro halike
  rw [← hits_of_stand_ins h halike]
  exact hrate s

/-- The standard filters, and one that asks for the name of an event. -/
def namingRegistry : Registry := Registry.standard.put "isA" (.filter fun e => e.id == "a")

/-- Two retained events, a number and a text. -/
def numberAndText : List Event := [⟨"a", .integer 1, 0⟩, ⟨"b", .text "off", 1⟩]

/-- The view when the text has come. -/
def textView : Frame := ⟨⟨"b", .text "off", 1⟩, none, [], namingRegistry⟩

/-- One of the two events is a number, and one of them is `a`. But when `b` has come, no event is `a`. -/
theorem hitRate_by_reading_and_by_name :
    (aggregate evaluate (.hitRate (.filter "numericFilter")) numberAndText textView).run ⟨.empty, []⟩ =
      (.ok (.float (Float.ofNat 1 / Float.ofNat 2)), ⟨.empty, []⟩) ∧
    (aggregate evaluate (.hitRate (.filter "isA")) numberAndText textView).run ⟨.empty, []⟩ =
      (.ok (.float (Float.ofNat 0 / Float.ofNat 2)), ⟨.empty, []⟩) ∧
    (Code.filter "isA").hits namingRegistry numberAndText = 1 := by
  have hbatch : numberAndText ≠ [] := List.cons_ne_nil _ _
  constructor
  · have hanswers : ∀ e ∈ numberAndText,
        ∃ hit, (Code.filter "numericFilter").answer namingRegistry (textView.standIn e) = .ok hit :=
      fun _ _ => ⟨_, rfl⟩
    apply (hitRate_of_standIns rfl textView hbatch hanswers ⟨.empty, []⟩).2
    intro e _ name hname f hf
    obtain rfl := List.mem_singleton.mp hname
    -- the filter looks at nothing but the reading
    cases hf
    rfl
  · have hanswers : ∀ e ∈ numberAndText,
        ∃ hit, (Code.filter "isA").answer namingRegistry (textView.standIn e) = .ok hit :=
      fun _ _ => ⟨_, rfl⟩
    exact ⟨(hitRate_of_standIns rfl textView hbatch hanswers ⟨.empty, []⟩).1, rfl⟩

end Chain

end EventRules
