import EventRules.Proofs.Lowering.Instantiation
import EventRules.Proofs.Matching.Selection

/-!
# The parameter of an anonymous function

An anonymous function is applied to the value under test: from the beginning it evaluates like its body with
the reading of the event written for the parameter. That holds as far as the parameter stands for the
reading in the body.
-/

namespace EventRules
set_option autoImplicit false

open Lowering

/-- From the beginning, an anonymous function and its body with the reading for the parameter evaluate alike
if both can be lowered. -/
def StandsForReading (constants : Keyed Value) (registry : Registry) (p : Token) (body : Expr) : Prop :=
  ∀ (arg : Expr) (event : Event), constantValue? constants arg = some event.value →
    ∀ (o u u' : Output) (code code' : Code),
      (lower ⟨constants, registry, none⟩ (.lambda [p] body)).run o = (.ok code, u) →
      (lower ⟨constants, registry, none⟩ (body.instantiate ⟨p.text, arg⟩)).run o = (.ok code', u') →
      ∀ (anchor : Option Int64) (s : Session), s.env.states = .empty →
        (evaluate code event.value ⟨event, anchor, u.fragments, registry⟩).run s =
          (evaluate code' event.value ⟨event, anchor, u'.fragments, registry⟩).run s

variable {constants : Keyed Value} {registry : Registry} {p : Token} {body : Expr}

/-- A parameter stands for the reading unless it stands in the condition of a verdict, or a constant has its
name and it is an argument by itself or stands below another anonymous function. -/
theorem parameter_standsForReading
    (h : body.takesReading p.text (constants.get? p.text).isSome = true) :
    StandsForReading constants registry p body := by
  intro arg event hvalue o u u' code code' hcode hcode' anchor s hs
  have hbody : (lower ⟨constants, registry, some p.text⟩ body).run o = (.ok code, u) := by
    rw [← hcode, lower]
    rfl
  have hbinding : Instantiated event.value ⟨p.text, arg⟩ ⟨constants, registry, some p.text⟩
      ⟨constants, registry, none⟩ body (body.instantiate ⟨p.text, arg⟩) := .filled hvalue h
  obtain ⟨⟨hfilled, -⟩, hout⟩ :=
    lower_fills body _ _ _ hbinding o o code code' u u' o.filled_same hbody hcode'
  exact evaluate_filled hout.fragments hfilled anchor hs

/-- The code of an expression by itself, and what is produced with it. -/
def lowered? (constants : Keyed Value) (e : Expr) : Option (Code × Output) :=
  match (lower ⟨constants, .empty, none⟩ e).run .empty with
  | (.ok code, u) => some (code, u)
  | _ => none

theorem run_of_lowered {e : Expr} {code : Code} {u : Output} (h : lowered? constants e = some (code, u)) :
    (lower ⟨constants, .empty, none⟩ e).run .empty = (.ok code, u) := by
  rw [lowered?] at h
  split at h
  · next heq =>
    cases h
    exact heq
  · cases h

/-- Whether the program is an anonymous function in which the parameter stands for the reading, and the
argument is filled in in its fragments. -/
def fillsFragments (constants : Keyed Value) (arg : Expr) : Program → Bool
  | [.bare (.lambda [p] body)] =>
    match lowered? constants (.lambda [p] body), lowered? constants (body.instantiate ⟨p.text, arg⟩) with
    | some (_, u), some (_, u') =>
      body.takesReading p.text (constants.get? p.text).isSome && u.fragments != u'.fragments
    | _, _ => false
  | _ => false

/-- A filter and a hit rate with the parameter, and another function that has it too, beside a constant of
the same name. -/
theorem parameter_standsForReading_beside_constant :
    ∃ (p : Token) (body : Expr) (code code' : Code) (u u' : Output),
      parseSource "(v)->filter(v>3).hitRate(v<9).meet(>0.5)&&((v)->v<8)" = .ok [.bare (.lambda [p] body)] ∧
      body.takesReading p.text ((bindAll [("v", .integer 5)]).get? p.text).isSome = true ∧
      (lower ⟨bindAll [("v", .integer 5)], .empty, none⟩ (.lambda [p] body)).run .empty = (.ok code, u) ∧
      (lower ⟨bindAll [("v", .integer 5)], .empty, none⟩ (body.instantiate
        ⟨p.text, .scalar (.integer 7) ⟨.integer, "7", .nowhere⟩⟩)).run .empty = (.ok code', u') ∧
      u.fragments ≠ u'.fragments ∧
      (evaluate code (.integer 7) ⟨⟨"e", .integer 7, 0⟩, none, u.fragments, .empty⟩).run ⟨.empty, []⟩ =
        (evaluate code' (.integer 7) ⟨⟨"e", .integer 7, 0⟩, none, u'.fragments, .empty⟩).run
          ⟨.empty, []⟩ := by
  obtain ⟨program, hparse, hfills⟩ := exists_of_any
    (p := fillsFragments (bindAll [("v", .integer 5)]) (.scalar (.integer 7) ⟨.integer, "7", .nowhere⟩))
    (r := parseSource "(v)->filter(v>3).hitRate(v<9).meet(>0.5)&&((v)->v<8)") (by decide +kernel)
  rw [fillsFragments.eq_def] at hfills
  split at hfills
  · next p body =>
    split at hfills
    · next code u code' u' hcode hcode' =>
      obtain ⟨hreading, hfragments⟩ := Bool.and_eq_true_iff.mp hfills
      have hrun := run_of_lowered hcode
      have hrun' := run_of_lowered hcode'
      exact ⟨p, body, code, code', u, u', hparse, hreading, hrun, hrun', bne_iff_ne.mp hfragments,
        parameter_standsForReading hreading _ ⟨"e", .integer 7, 0⟩ rfl _ _ _ _ _ hrun hrun' none _ rfl⟩
    · cases hfills
  · cases hfills

/-- Whether the program is an anonymous function that says something else about the event than its body with
the argument. -/
def refutes (constants : Keyed Value) (arg : Expr) (event : Event) : Program → Bool
  | [.bare (.lambda [p] body)] =>
    match lowered? constants (.lambda [p] body), lowered? constants (body.instantiate ⟨p.text, arg⟩) with
    | some (code, u), some (code', u') =>
      ((evaluate code event.value ⟨event, none, u.fragments, .empty⟩).run ⟨.empty, []⟩).1 !=
        ((evaluate code' event.value ⟨event, none, u'.fragments, .empty⟩).run ⟨.empty, []⟩).1
    | _, _ => false
  | _ => false

theorem exists_refuted {source : String} {arg : Expr} {event : Event}
    (hvalue : constantValue? constants arg = some event.value)
    (h : (parseSource source).toOption.any (refutes constants arg event) = true) :
    ∃ p body, parseSource source = .ok [.bare (.lambda [p] body)] ∧
      ¬ StandsForReading constants .empty p body := by
  obtain ⟨program, hparse, hrefutes⟩ := exists_of_any h
  rw [refutes.eq_def] at hrefutes
  split at hrefutes
  · next p body =>
    refine ⟨p, body, hparse, fun hstands => ?_⟩
    split at hrefutes
    · next code u code' u' hcode hcode' =>
      have hsame := hstands arg event hvalue .empty u u' code code' (run_of_lowered hcode)
        (run_of_lowered hcode') none ⟨.empty, []⟩ rfl
      rw [hsame] at hrefutes
      exact absurd rfl (bne_iff_ne.mp hrefutes)
    · cases hrefutes
  · cases hrefutes

/-- In the condition of a verdict the parameter is the reduced value. -/
theorem parameter_not_always_reading :
    ∃ p body, parseSource "(v)->collect().count().meet(v>3)" = .ok [.bare (.lambda [p] body)] ∧
      ¬ StandsForReading .empty .empty p body := by
  have hseven : constantValue? .empty (.scalar (.integer 7) ⟨.integer, "7", .nowhere⟩) =
      some (⟨"e", .integer 7, 0⟩ : Event).value := rfl
  exact exists_refuted hseven (by decide +kernel)

end EventRules
