import Mathlib.Data.List.Induction
import EventRules.Proofs.Chain.HitRate
import EventRules.Proofs.Matching.Runs

/-!
# A monitor called time and again

A monitor is called with one event after the other. Its condition, if that calls nothing itself, answers
about each event as it would alone, so a call takes the monitor from one state to the next and touches
nothing else. What holds in the beginning and is kept by every such move holds after all calls, and what
every move answers is known for each of them from the calls before it.
-/

namespace EventRules
set_option autoImplicit false

open Routine

/-- A call of a fragment: the event it comes with, and the time that it is anchored at inside an arrow. -/
structure Visit where
  event : Event
  anchor : Option Int64

/-- What the fragment at a place of the table answers to calls one after the other. -/
def callEach (fragments : List Fragment) (registry : Registry) (name : String) (index : Nat) :
    List Visit → Run (List Bool)
  | [] => return []
  | v :: visits => do
    let answer ← callFragment fragments.length name index ⟨v.event, v.anchor, fragments, registry⟩
    let answers ← callEach fragments registry name index visits
    return answer :: answers

/-- A call takes the monitor from one state to the other with this answer, whatever else there is. -/
def Monitor.Moves (plan : Monitor.Plan) (registry : Registry) (v : Visit) (own own' : Monitor.State)
    (answer : Bool) : Prop :=
  ∀ eval : Evaluator, eval.Evaluates → ∀ fragments s,
    (Monitor.run eval plan ⟨v.event, v.anchor, fragments, registry⟩).run (own, s) =
      (.ok answer, (own', s))

section

variable {fragments : List Fragment} {registry : Registry} {name : String} {index : Nat}
  {plan : Monitor.Plan} {own own' : Monitor.State} {v : Visit} {answer : Bool}

/-- A condition that calls nothing is asked about the event as it would be alone. -/
theorem held_run {c : Code} (hfree : c.references = []) {held : Bool}
    (hheld : c.answer registry v.event = .ok held) {eval : Evaluator} (heval : eval.Evaluates)
    (fragments : List Fragment) (own : Monitor.State) (s : Session) :
    (Step.lift (eval.holds c v.event.value ⟨v.event, v.anchor, fragments, registry⟩)).run (own, s) =
      (.ok held, (own, s)) := by
  have hsettles : Settles (eval.holds c v.event.value ⟨v.event, v.anchor, fragments, registry⟩)
      (c.answer registry v.event) := answer_settles hfree heval v.event v.anchor fragments
  rw [hheld] at hsettles
  exact hsettles.lift own s

theorem monitor_initially {s : Session} (hs : s.env.states.get? name = none) :
    Fragment.stateIn ⟨name, .monitor plan⟩ s.env = .monitor plan.initial := by
  rw [Fragment.stateIn, hs]
  rfl

theorem monitor_fragment_run {eval : Evaluator} {frame : Frame} {s : Session}
    (hstate : Fragment.stateIn ⟨name, .monitor plan⟩ s.env = .monitor own) :
    (Fragment.run eval ⟨name, .monitor plan⟩ frame).run s =
      (withState name .monitor own (Monitor.run eval plan frame)).run
        { s with trace := .called name :: s.trace } := by
  have hnote : (Run.note (.called name)).run s = (.ok (), { s with trace := .called name :: s.trace }) := rfl
  have hnow : ∀ t : Session, (state : Run Session).run t = (.ok t, t) := fun _ => rfl
  have hown : (s.env.states.get? name).getD (FragmentBody.monitor plan).initial = .monitor own := hstate
  rw [Fragment.run, run_bind_ok hnote, run_bind_ok (hnow _)]
  simp only [hown]

/-- A monitor that moves answers the call, and the state that it moves to is put back. -/
theorem call_of_moves (hplace : fragments[index]? = some ⟨name, .monitor plan⟩)
    (hmoves : Monitor.Moves plan registry v own own' answer) {s : Session}
    (hstate : Fragment.stateIn ⟨name, .monitor plan⟩ s.env = .monitor own) :
    ∃ t, (callFragment fragments.length name index ⟨v.event, v.anchor, fragments, registry⟩).run s =
        (.ok answer, t) ∧
      Fragment.stateIn ⟨name, .monitor plan⟩ t.env = .monitor own' := by
  have hlt := (List.getElem?_eq_some_iff.mp hplace).1
  obtain ⟨depth, hdepth⟩ := Nat.exists_eq_succ_of_ne_zero (Nat.ne_of_gt (Nat.zero_lt_of_lt hlt))
  have hstep := hmoves _ (Code.evaluate_evaluates (callFragment depth)) fragments
    { env := { s.env with states := s.env.states.remove name }, trace := .called name :: s.trace }
  obtain ⟨t, hrun, hget⟩ := withState_run (s := ⟨s.env, .called name :: s.trace⟩) name .monitor hstep
  refine ⟨t, ?_, ?_⟩
  · rw [hdepth, callFragment]
    simp only [hplace, if_true]
    rw [monitor_fragment_run hstate]
    exact hrun
  · rw [Fragment.stateIn, hget]
    rfl

theorem callEach_concat {visits : List Visit} {answers : List Bool} {s t u : Session}
    (h : (callEach fragments registry name index visits).run s = (.ok answers, t))
    (hcall : (callFragment fragments.length name index ⟨v.event, v.anchor, fragments, registry⟩).run t =
      (.ok answer, u)) :
    (callEach fragments registry name index (visits ++ [v])).run s = (.ok (answers ++ [answer]), u) := by
  induction visits generalizing s answers with
  | nil =>
    cases h
    rw [List.nil_append, callEach, run_bind_ok hcall]
    rfl
  | cons w visits ih =>
    rw [callEach] at h
    obtain ⟨first, s', hfirst, h⟩ := bind_ok h
    obtain ⟨rest, t', hrest, hpure⟩ := bind_ok h
    cases hpure
    rw [List.cons_append, callEach, run_bind_ok hfirst, run_bind_ok (ih hrest)]
    rfl

/-- If every move of the monitor keeps what is known of its state, and answers as it should, then all
calls are answered, each of them as it should be behind those before it. -/
theorem callEach_run (visits : List Visit) (Known : List Visit → List Bool → Monitor.State → Prop)
    (Fit : List Visit → List Bool → Visit → Bool → Prop)
    (hplace : fragments[index]? = some ⟨name, .monitor plan⟩) (hbegin : Known [] [] plan.initial)
    (hmove : ∀ before answers own v, v ∈ visits → answers.length = before.length →
      Known before answers own → ∃ answer own', Monitor.Moves plan registry v own own' answer ∧
        Known (before ++ [v]) (answers ++ [answer]) own' ∧ Fit before answers v answer)
    {s : Session} (hs : Fragment.stateIn ⟨name, .monitor plan⟩ s.env = .monitor plan.initial) :
    ∃ answers own t, (callEach fragments registry name index visits).run s = (.ok answers, t) ∧
      Fragment.stateIn ⟨name, .monitor plan⟩ t.env = .monitor own ∧ Known visits answers own ∧
      answers.length = visits.length ∧
      ∀ i v answer, visits[i]? = some v → answers[i]? = some answer →
        Fit (visits.take i) (answers.take i) v answer := by
  induction visits using List.reverseRecOn with
  | nil => exact ⟨[], plan.initial, s, rfl, hs, hbegin, rfl, fun _ _ _ hv => by cases hv⟩
  | append_singleton visits v ih =>
    obtain ⟨answers, own, t, hrun, hstate, hknown, hlength, heach⟩ :=
      ih fun before answers own w hw => hmove before answers own w (List.mem_append_left _ hw)
    obtain ⟨answer, own', hmoves, hknown', hfit⟩ :=
      hmove visits answers own v (List.mem_append_right _ (List.mem_singleton.mpr rfl)) hlength hknown
    obtain ⟨u, hcall, hstate'⟩ := call_of_moves hplace hmoves hstate
    refine ⟨_, own', u, callEach_concat hrun hcall, hstate', hknown', by simp [hlength], ?_⟩
    intro i w b hw hb
    by_cases hi : i < visits.length
    · rw [List.getElem?_append_left hi] at hw
      rw [List.getElem?_append_left (hlength ▸ hi)] at hb
      rw [List.take_append_of_le_length (Nat.le_of_lt hi),
        List.take_append_of_le_length (hlength ▸ Nat.le_of_lt hi)]
      exact heach i w b hw hb
    · have hlast := (List.getElem?_eq_some_iff.mp hw).1
      rw [List.length_append, List.length_singleton] at hlast
      obtain rfl : i = visits.length := by omega
      rw [List.getElem?_concat_length] at hw
      rw [← hlength, List.getElem?_concat_length] at hb
      cases hw
      cases hb
      rw [List.take_left, ← hlength, List.take_left]
      exact hfit

end

end EventRules
