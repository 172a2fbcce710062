import EventRules.Proofs.Matching.Linearity

/-!
# Evaluation touches only its own state

Code of a compiled rule, evaluated in any environment, writes the states of the fragments that it can
reach, and no constants. While a fragment runs its state is out, but it is put back whether the run
succeeds or fails; so a state that is gone in the end was taken away by an arrow that the code reaches,
that owns the fragment and that was completed meanwhile.
-/

namespace EventRules
set_option autoImplicit false

open Routine

theorem compiled_local {rule : Rule} {registry : Registry} {constants : List (String × Value)}
    {source : String} (h : compile registry constants source = .ok rule) (c : Code) (subject : Value)
    (frame : Frame) (hframe : frame.fragments = rule.fragments) (s t : Session)
    (r : Except RunError Value) (hrun : (evaluate c subject frame).run s = (r, t)) :
    t.env.constants = s.env.constants ∧
    (∀ name, (∀ j f, Reaches rule.fragments c.references j → rule.fragments[j]? = some f → f.name ≠ name) →
      t.env.states.get? name = s.env.states.get? name) ∧
    (∀ name, s.env.states.get? name ≠ none → t.env.states.get? name = none →
      ∃ j f plan, Reaches rule.fragments c.references j ∧ rule.fragments[j]? = some f ∧
        f.body = .arrow plan ∧ name ∈ plan.owned ∧ ⟨f.name, .ok true⟩ ∈ evaluateLog c subject frame s) ∧
    ∃ entries, t.trace = entries ++ s.trace ∧
      entries.reverse.filterMap TraceEntry.called? = logged (evaluateLog c subject frame s) := by
  have hlinear := compiled_linear h
  have hlog := evaluate_keeps hlinear.orderly c subject frame hframe s
  rw [hrun] at hlog
  refine ⟨hlog.constants, ?_, ?_, hlog.trace⟩
  · intro name hname
    refine hlog.kept name ?_
    rintro ⟨j, f, hj, hf, hsame⟩
    exact hname j f hj hf hsame
  · intro name hs ht
    obtain hfreed | ⟨k, hk, htrue, f, hf, hname, plan, hplan, howned⟩ := hlog.lost name hs ht
    · exact hfreed.elim
    · obtain ⟨j, g, hj, hg, hsame⟩ := hlog.reached k hk
      obtain ⟨i, hi⟩ := List.mem_iff_getElem?.mp hf
      obtain rfl : j = i := Site.index_eq_of_name hlinear.names hg hi (hsame.trans hname.symm)
      refine ⟨j, f, plan, hj, hi, hplan, howned, ?_⟩
      rw [hname, ← htrue]
      exact hk

/-- The call of the arrow completes it, and so the sum of its first stage is gone; the counter beside it
is left alone. -/
theorem compiled_local_completed_arrow :
    ∃ rule s t frame, compile .empty [] "count(==1,3)||{filter(>0).sum().meet(>=3)}->{==0}" = .ok rule ∧
      rule.entry = .binary .or (.call "count_1" 0) (.call "arrow_2" 2) ∧
      s = (rule.matcher.after [⟨"a", .integer 1, 0⟩, ⟨"b", .integer 2, 1⟩]).session ∧
      frame.fragments = rule.fragments ∧
      (evaluate (.call "arrow_2" 2) (.integer 0) frame).run s = (.ok (.boolean true), t) ∧
      s.env.states.get? "chain_3" ≠ none ∧ t.env.states.get? "chain_3" = none ∧
      (∃ j f plan, Reaches rule.fragments [⟨"arrow_2", 2⟩] j ∧ rule.fragments[j]? = some f ∧
        f.body = .arrow plan ∧ "chain_3" ∈ plan.owned ∧
        ⟨f.name, .ok true⟩ ∈ evaluateLog (.call "arrow_2" 2) (.integer 0) frame s) ∧
      s.env.states.get? "count_1" ≠ none ∧
      t.env.states.get? "count_1" = s.env.states.get? "count_1" := by
  obtain ⟨rule, h, hrun⟩ := exists_of_any (p := fun rule =>
      let s := (rule.matcher.after [⟨"a", .integer 1, 0⟩, ⟨"b", .integer 2, 1⟩]).session
      let ran := (evaluate (.call "arrow_2" 2) (.integer 0)
        ⟨⟨"c", .integer 0, 2⟩, none, rule.fragments, rule.registry⟩).run s
      rule.entry == .binary .or (.call "count_1" 0) (.call "arrow_2" 2) &&
        rule.fragments == [⟨"count_1", .monitor (.count (.compare .equal (.literal (.integer 1))) 3 false)⟩,
          ⟨"chain_3", .chain ⟨[.condition (.compare .greater (.literal (.integer 0)))], none, none, .sum,
            .condition (.compare .greaterEqual (.literal (.integer 3))), false⟩⟩,
          ⟨"arrow_2", .arrow ⟨[.call "chain_3" 1, .compare .equal (.literal (.integer 0))], ["chain_3"]⟩⟩] &&
        decide (ran.1 = .ok (.boolean true)) && (s.env.states.get? "chain_3").isSome &&
        (ran.2.env.states.get? "chain_3").isNone && (s.env.states.get? "count_1").isSome)
    (r := compile .empty [] "count(==1,3)||{filter(>0).sum().meet(>=3)}->{==0}") (by decide +kernel)
  generalize hs : (rule.matcher.after [⟨"a", .integer 1, 0⟩, ⟨"b", .integer 2, 1⟩]).session = s at hrun
  generalize hframe : (⟨⟨"c", .integer 0, 2⟩, none, rule.fragments, rule.registry⟩ : Frame) = frame at hrun
  have hfragments : frame.fragments = rule.fragments := by rw [← hframe]
  cases hran : (evaluate (.call "arrow_2" 2) (.integer 0) frame).run s with
  | mk r t =>
    simp only [hran, Bool.and_eq_true, beq_iff_eq, decide_eq_true_eq, Option.isSome_iff_ne_none,
      Option.isNone_iff_eq_none] at hrun
    obtain ⟨⟨⟨⟨⟨hentry, htable⟩, rfl⟩, hbefore⟩, hafter⟩, hcounter⟩ := hrun
    obtain ⟨-, hkept, hlost, -⟩ := compiled_local h _ _ frame hfragments s t _ hran
    refine ⟨rule, s, t, frame, h, hentry, hs.symm, hfragments, hran, hbefore, hafter,
      hlost "chain_3" hbefore hafter, hcounter, hkept "count_1" ?_⟩
    intro j f hj hf
    rw [htable] at hj hf
    have hplace : j = 1 ∨ j = 2 := hj.closed (P := fun j => j = 1 ∨ j = 2) (by simp [Code.references]) (by
      rintro i g hg (rfl | rfl) r hr
      · cases hg
        cases hr
      · cases hg
        obtain rfl : r = ⟨"chain_3", 1⟩ := List.mem_singleton.mp hr
        exact .inl rfl)
    rcases hplace with rfl | rfl
    · cases hf
      decide
    · cases hf
      decide

end EventRules
