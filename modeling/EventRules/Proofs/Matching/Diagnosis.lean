import EventRules.Compile
import EventRules.Proofs.Lowering.Pointing
import EventRules.Proofs.Rule.Places

/-!
# Where compile errors point

An error that compiling a source ends with, if it has a place, stands at a place of the source. Below the
line of this place the message has a mark under the first character behind it.
-/

namespace EventRules
set_option autoImplicit false

open Routine Text

variable {source : String} {registry : Registry} {constants : List (String × Value)}

/-- The place of an error, if it has one, satisfies `P`. -/
def CompileError.Pinned (P : Position → Prop) (e : CompileError) : Prop := ∀ p ∈ e.position?, P p

theorem CompileError.position_ofLowering (e : LoweringError) : (ofLowering e).position? = e.position? := by
  cases e <;> rfl

/-- The statements of a source and its errors both stand in it. -/
theorem parseSource_points (source : String) :
    Answers (CompileError.Pinned (·.StandsIn source.toList))
      (fun ss => ∀ s ∈ ss, s.Pinned (·.StandsIn source.toList)) (parseSource source) := by
  unfold parseSource
  apply Answers.bind (S := fun ts => tokenize source = .ok ts)
  · cases htokens : tokenize source with
    | error e =>
      intro p hp
      cases hp
      exact lexError_stands htokens
    | ok ts => rfl
  · intro ts htokens
    have hstand := tokens_stand htokens
    obtain ⟨scans, hscans, rfl⟩ := Scans.of_tokenize htokens
    obtain ⟨front, e, rfl, hend, -, -⟩ := hscans.ended
    rw [List.map_append, List.map_singleton] at hstand ⊢
    apply (parseProgram_points hend hstand).mapError
    intro error herror p hp
    cases hp
    exact herror

theorem compile_points (registry : Registry) (constants : List (String × Value)) (source : String) :
    Answers (CompileError.Pinned (·.StandsIn source.toList)) (fun _ => True)
      (compile registry constants source) := by
  unfold compile
  apply (parseSource_points source).bind
  intro p hp
  have hrun := (Lowering.program_points hp registry ⟨bindAll constants, .empty⟩ trivial).2
  apply (hrun.mapError (D := CompileError.Pinned (·.StandsIn source.toList)) ?_).bind
  · intro entry _
    trivial
  · intro e he
    unfold CompileError.Pinned
    rw [CompileError.position_ofLowering]
    exact he

theorem CompileError.render_eq {e : CompileError} {p : Position} {line : List Char}
    (hp : e.position? = some p) (hline : (lines source.toList)[p.line - 1]? = some line) :
    e.render source = e.message ++ "\n  " ++ String.ofList line ++ "\n  " ++
      String.ofList (List.replicate (p.column - 1) ' ') ++ "^" := by
  have hplace : (e.position?.bind fun p =>
      (lines source.toList)[p.line - 1]?.map fun line => (p, line)) = some (p, line) := by
    rw [hp, Option.bind_some, hline]
    rfl
  unfold render
  rw [hplace]
  simp [toString, String.append_assoc]

/-- An error of `compile` that has a place has the counts of a place of the source, and if the source has
that line, then the line is shown with a mark below the place. -/
theorem compileError_located {e : CompileError} {p : Position}
    (h : compile registry constants source = .error e) (hp : e.position? = some p) :
    p.offset ≤ source.length ∧
    p.line = 1 + (source.toList.take p.offset).count '\n' ∧
    p.column = 1 + ((source.toList.take p.offset).reverse.takeWhile (· != '\n')).length ∧
    ∀ line, (lines source.toList)[p.line - 1]? = some line →
      e.render source = e.message ++ "\n  " ++ String.ofList line ++ "\n  " ++
        String.ofList (List.replicate (p.column - 1) ' ') ++ "^" ∧
      p.column - 1 ≤ line.length ∧ p.column - 1 ≤ p.offset ∧
      line.take (p.column - 1) = (source.toList.take p.offset).drop (p.offset - (p.column - 1)) := by
  have hstands : p.StandsIn source.toList := (compile_points registry constants source).error_of h p hp
  obtain ⟨hoffset, hcounts⟩ := hstands.counts
  rw [String.length_toList] at hoffset
  refine ⟨hoffset, congrArg Position.line hcounts, congrArg Position.column hcounts, ?_⟩
  intro line hline
  obtain ⟨hbegins, hlength, hbefore⟩ := hstands.line_begins hline
  exact ⟨CompileError.render_eq hp hline, hlength, hbefore, hbegins⟩

/-- The operand is the arrow of a shorthand on the second line; the error points at its first value. -/
theorem compileError_located_in_shorthand :
    ∃ e, compile .empty [] "let A = 2;\r\n  ==<1,2>" = .error e ∧ e.position? = some ⟨17, 2, 6⟩ ∧
      17 ≤ "let A = 2;\r\n  ==<1,2>".length ∧
      e.render "let A = 2;\r\n  ==<1,2>" =
        e.message ++ "\n  " ++ "  ==<1,2>" ++ "\n  " ++ "     " ++ "^" ∧
      "  ==<1,2>".toList.take 5 = ("let A = 2;\r\n  ==<1,2>".toList.take 17).drop 12 := by
  have hplace : (match compile .empty [] "let A = 2;\r\n  ==<1,2>" with
      | .error e => e.position?
      | .ok _ => none) = some ⟨17, 2, 6⟩ := by decide +kernel
  have hline : (lines "let A = 2;\r\n  ==<1,2>".toList)[1]? = some "  ==<1,2>".toList := by
    decide +kernel
  cases h : compile .empty [] "let A = 2;\r\n  ==<1,2>" with
  | ok rule =>
    rw [h] at hplace
    cases hplace
  | error e =>
    rw [h] at hplace
    obtain ⟨hoffset, -, -, hlines⟩ := compileError_located h hplace
    obtain ⟨hrender, -, -, hbegins⟩ := hlines _ hline
    exact ⟨e, rfl, hplace, hoffset, hrender, hbegins⟩

end EventRules
