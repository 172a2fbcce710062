import Mathlib.Data.List.DropRight
import Mathlib.Data.Nat.ModEq
import EventRules.Proofs.Monitor.Calling

/-!
# Which matches a counter fires on

A counter holds on every so many matches. It keeps the number of matches since it last held, which is
what all matches leave when they are divided into groups; the strict form counts the matches without a
miss between them in the same way. So it holds on a match if and only if the matches up to it, or those of
the unbroken run that it ends, fill their groups.
-/

namespace EventRules
set_option autoImplicit false

open Routine

/-- The events that a counter counts in groups: all that match, or in the strict form those in the last
run without a miss. -/
def tally (strict : Bool) (holds : Event → Bool) (events : List Event) : Nat :=
  if strict then (events.rtakeWhile holds).length else events.countP holds

section

variable {strict : Bool} {holds : Event → Bool} {events : List Event} {e : Event}

theorem tally_match (h : holds e = true) :
    tally strict holds (events ++ [e]) = tally strict holds events + 1 := by
  cases strict with
  | false => simp [tally, h]
  | true => simp [tally, List.rtakeWhile_concat_pos _ _ _ h]

theorem tally_miss (h : holds e = false) :
    tally strict holds (events ++ [e]) = if strict then 0 else tally strict holds events := by
  cases strict with
  | false => simp [tally, h]
  | true => simp [tally, List.rtakeWhile_concat_neg _ _ _ (Bool.not_eq_true _ ▸ h)]

end

theorem group_filled_iff {n : Nat} (hn : 0 < n) (k : Nat) : n ≤ k % n + 1 ↔ n ∣ k + 1 := by
  have hlt := Nat.mod_lt k hn
  rw [Nat.dvd_iff_mod_eq_zero, ← Nat.mod_add_mod]
  constructor
  · intro hle
    have heq : k % n + 1 = n := Nat.le_antisymm hlt hle
    rw [heq, Nat.mod_self]
  · intro hzero
    by_contra hnot
    rw [Nat.mod_eq_of_lt (Nat.not_le.mp hnot)] at hzero
    cases hzero

namespace Monitor

variable {c : Code} {registry : Registry} {v : Visit}

theorem count_moves (hfree : c.references = []) {held : Bool} (hheld : c.answer registry v.event = .ok held)
    (times : Nat) (strict : Bool) (seen : Nat) :
    Moves (.count c times strict) registry v (.count seen)
      (.count (if held then if times ≤ seen + 1 then 0 else seen + 1 else if strict then 0 else seen))
      (held && decide (times ≤ seen + 1)) := by
  intro eval heval fragments s
  change (runCount eval c times strict seen _).run (State.count seen, s) = _
  rw [runCount, run_bind_ok (held_run hfree hheld heval fragments _ s)]
  cases held with
  | false => cases strict <;> rfl
  | true =>
    by_cases hfull : times ≤ seen + 1
    · simp only [hfull, if_true, decide_true, Bool.and_true, Bool.not_true, Bool.false_eq_true, if_false]
      rfl
    · simp only [hfull, if_true, if_false, decide_false, Bool.and_false, Bool.not_true, Bool.false_eq_true]
      rfl

/-- What is left over of the matches so far is what the counter has seen since it last held. -/
theorem count_moves_tally (hfree : c.references = []) {n : Nat} (hn : 0 < n) {holds : Event → Bool}
    (hheld : c.answer registry v.event = .ok (holds v.event)) (strict : Bool) (before : List Event) :
    Moves (.count c n strict) registry v (.count (tally strict holds before % n))
      (.count (tally strict holds (before ++ [v.event]) % n))
      (holds v.event && decide (n ∣ tally strict holds (before ++ [v.event]))) := by
  have hmoves := count_moves hfree hheld n strict (tally strict holds before % n)
  cases hmatch : holds v.event with
  | false =>
    rw [hmatch] at hmoves
    rw [tally_miss hmatch]
    cases strict with
    | false => exact hmoves
    | true =>
      rw [if_pos rfl, Nat.zero_mod]
      exact hmoves
  | true =>
    rw [hmatch] at hmoves
    rw [tally_match hmatch]
    simp only [if_true, group_filled_iff hn] at hmoves
    by_cases hfull : n ∣ tally strict holds before + 1
    · rw [Nat.mod_eq_zero_of_dvd hfull]
      rw [if_pos hfull] at hmoves
      exact hmoves
    · have hroom : tally strict holds before % n + 1 < n :=
        Nat.not_le.mp (mt (group_filled_iff hn _).mp hfull)
      rw [← Nat.mod_add_mod, Nat.mod_eq_of_lt hroom]
      rw [if_neg hfull] at hmoves
      exact hmoves

end Monitor

/-- A counter whose condition calls nothing and does not fail answers every event. It holds on those that
match and fill a group of matches, and never keeps as many matches as a group has. -/
theorem counter_holds {fragments : List Fragment} {registry : Registry} {name : String} {index : Nat}
    {c : Code} {n : Nat} {strict : Bool} {holds : Event → Bool} {visits : List Visit} {s : Session}
    (hplace : fragments[index]? = some ⟨name, .monitor (.count c n strict)⟩) (hn : 1 ≤ n)
    (hfree : c.references = [])
    (hanswers : ∀ v ∈ visits, c.answer registry v.event = .ok (holds v.event))
    (hs : s.env.states.get? name = none) :
    ∃ answers t, (callEach fragments registry name index visits).run s = (.ok answers, t) ∧
      answers.length = visits.length ∧
      (∀ i v, visits[i]? = some v → (answers[i]? = some true ↔
        holds v.event = true ∧ n ∣ tally strict holds ((visits.take (i + 1)).map Visit.event))) ∧
      ∃ seen, Fragment.stateIn ⟨name, .monitor (.count c n strict)⟩ t.env = .monitor (.count seen) ∧
        seen < n := by
  obtain ⟨answers, own, t, hrun, hstate, rfl, hlength, heach⟩ :=
    callEach_run visits
      (fun before _ own => own = .count (tally strict holds (before.map Visit.event) % n))
      (fun before _ v answer => answer =
        (holds v.event && decide (n ∣ tally strict holds (before.map Visit.event ++ [v.event]))))
      hplace (by simp [tally, Monitor.Plan.initial])
      (by
        rintro before answers own v hv - rfl
        refine ⟨_, _, Monitor.count_moves_tally hfree hn (hanswers v hv) strict _, ?_, rfl⟩
        rw [List.map_append, List.map_singleton])
      (monitor_initially hs)
  refine ⟨answers, t, hrun, hlength, ?_, _, hstate, Nat.mod_lt _ hn⟩
  intro i v hv
  have hi : i < answers.length := hlength ▸ (List.getElem?_eq_some_iff.mp hv).1
  have hfit := heach i v answers[i] hv (List.getElem?_eq_getElem hi)
  have htaken : visits.take (i + 1) = visits.take i ++ [v] := by
    rw [List.take_add_one, hv, Option.toList_some]
  rw [List.getElem?_eq_getElem hi, Option.some.injEq, hfit, Bool.and_eq_true, decide_eq_true_eq, htaken,
    List.map_append, List.map_singleton]

/-- Of five ones with a zero behind the first, every second one is counted, and in the strict form every
second one behind the zero. -/
theorem counter_holds_on_every_second :
    let c : Code := .compare .equal (.literal (.integer 1))
    let holds (e : Event) : Bool := e.value == .integer 1
    let visits : List Visit := [1, 0, 1, 1, 1, 1].map fun n => ⟨⟨"", .integer n, 0⟩, none⟩
    let fragments : List Fragment :=
      [⟨"loose", .monitor (.count c 2 false)⟩, ⟨"strict", .monitor (.count c 2 true)⟩]
    (∀ v ∈ visits, c.answer .standard v.event = .ok (holds v.event)) ∧
      (∃ answers t, (callEach fragments .standard "loose" 0 visits).run ⟨.empty, []⟩ = (.ok answers, t) ∧
        ∀ i < visits.length, (answers[i]? = some true ↔ i = 2 ∨ i = 4)) ∧
      ∃ answers t, (callEach fragments .standard "strict" 1 visits).run ⟨.empty, []⟩ = (.ok answers, t) ∧
        ∀ i < visits.length, (answers[i]? = some true ↔ i = 3 ∨ i = 5) := by
  intro c holds visits fragments
  have hanswers : ∀ v ∈ visits, c.answer .standard v.event = .ok (holds v.event) := by decide +kernel
  refine ⟨hanswers, ?_, ?_⟩
  · have hplace : fragments[0]? = some ⟨"loose", .monitor (.count c 2 false)⟩ := rfl
    obtain ⟨answers, t, hrun, -, heach, -⟩ :=
      counter_holds (s := ⟨.empty, []⟩) hplace (by decide) rfl hanswers rfl
    refine ⟨answers, t, hrun, fun i hi => (heach i _ (List.getElem?_eq_getElem hi)).trans ?_⟩
    revert i
    decide +kernel
  · have hplace : fragments[1]? = some ⟨"strict", .monitor (.count c 2 true)⟩ := rfl
    obtain ⟨answers, t, hrun, -, heach, -⟩ :=
      counter_holds (s := ⟨.empty, []⟩) hplace (by decide) rfl hanswers rfl
    refine ⟨answers, t, hrun, fun i hi => (heach i _ (List.getElem?_eq_getElem hi)).trans ?_⟩
    revert i
    decide +kernel

end EventRules
