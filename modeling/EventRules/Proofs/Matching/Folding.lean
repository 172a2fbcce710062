import EventRules.Proofs.Matching.Runs
import EventRules.Proofs.Run.Folding
import EventRules.Proofs.Run.Recoding

/-!
# Rules with parts calculated in advance

Folded code evaluates to its value and leaves the session alone. So parts of a rule, the bounds of its
ranges above all, can be calculated when the rule is compiled, and it answers as before.
-/

namespace EventRules
set_option autoImplicit false

open Lowering

/-- The second code is the first one, some parts of which have been calculated. -/
inductive Code.Folds : Code → Code → Prop where
  | refl (c : Code) : Folds c c
  | calculated {c : Code} {v : Value} (h : c.fold? = some v) : Folds c (.literal v)
  | binary (op : BinaryOp) {l l' r r' : Code} (hl : Folds l l') (hr : Folds r r') :
      Folds (.binary op l r) (.binary op l' r')
  | not {c c' : Code} (h : Folds c c') : Folds (.not c) (.not c')
  | step (up : Bool) {c c' : Code} (h : Folds c c') : Folds (.step up c) (.step up c')
  | compare (op : CompareOp) {c c' : Code} (h : Folds c c') : Folds (.compare op c) (.compare op c')

theorem Code.Folds.same {c d : Code} (h : Code.Folds c d) : c.Same d := by
  intro call subject frame
  induction h with
  | refl c => rfl
  | calculated h => exact evaluate_of_fold h call subject frame
  | binary op _ _ ihl ihr => cases op <;> simp only [Code.evaluate, ihl, ihr]
  | not _ ih => simp only [Code.evaluate, ih]
  | step up _ ih => simp only [Code.evaluate, ih]
  | compare op _ ih => simp only [Code.evaluate, ih]

/-- What lowering makes of the bounds of a range. -/
theorem bound_folds (c : Code) : Code.Folds c (bound c) := by
  rw [bound]
  cases h : c.fold? with
  | none => exact .refl c
  | some v => exact .calculated h

namespace Matcher

variable {R : Code → Code → Prop} {rule rule' : Rule}

theorem results_recoded (hR : ∀ c d, R c d → c.Same d) (h : Rule.Recoded R rule rule')
    (env : Environment) (events : List Event) :
    (⟨rule, env⟩ : Matcher).results events = (⟨rule', env⟩ : Matcher).results events := by
  induction events generalizing env with
  | nil => rfl
  | cons e es ih =>
    obtain ⟨answer, env', hl, hr⟩ := feed_recoded hR h env e
    rw [results, results, hl, hr, ih env']

theorem feedAll_recoded (hR : ∀ c d, R c d → c.Same d) (h : Rule.Recoded R rule rule')
    (env : Environment) (events : List Event) :
    ((⟨rule, env⟩ : Matcher).feedAll events).1 = ((⟨rule', env⟩ : Matcher).feedAll events).1 := by
  induction events generalizing env with
  | nil => rfl
  | cons e es ih =>
    obtain ⟨answer, env', hl, hr⟩ := feed_recoded hR h env e
    simp only [feedAll, hl, hr]
    cases answer.result with
    | error err => rfl
    | ok b => exact congrArg (answer :: ·) (ih env')

end Matcher

/-- Code that folds evaluates to what it folds to, for every value under test and in every session, and
leaves the session as it is. Lowering makes of a bound of a range either its value or the bound as it is.
Rules some parts of which have been calculated in advance answer the same to all events, with the same
logs. -/
theorem folding_sound :
    (∀ c v, Code.fold? c = some v → ∀ subject frame s,
      (evaluate c subject frame).run s = (.ok v, s)) ∧
    (∀ c, Code.Folds c (bound c)) ∧
    ∀ rule rule', Rule.Recoded Code.Folds rule rule' → ∀ env events,
      (⟨rule, env⟩ : Matcher).results events = (⟨rule', env⟩ : Matcher).results events ∧
        ((⟨rule, env⟩ : Matcher).feedAll events).1 = ((⟨rule', env⟩ : Matcher).feedAll events).1 := by
  have hsame : ∀ c d, Code.Folds c d → c.Same d := fun _ _ h => h.same
  refine ⟨?_, bound_folds, ?_⟩
  · intro c v h subject frame s
    rw [evaluate, evaluate_of_fold h]
    rfl
  · intro rule rule' h env events
    exact ⟨Matcher.results_recoded hsame h env events, Matcher.feedAll_recoded hsame h env events⟩

/-- A chain that holds from the second event on that reaches a bound. -/
def twiceFrom (low : Code) : Rule where
  source := "filter(>=low).collect().count().meet(>=2)"
  entry := .call "chain_1" 0
  fragments := [⟨"chain_1", .chain {
    filters := [.condition (.compare .greaterEqual low)]
    sampler := none
    take := none
    aggregation := .count
    verdict := .condition (.compare .greaterEqual (.literal (.integer 2)))
    clears := false }⟩]
  constants := .empty
  registry := .empty
  warnings := []

theorem folding_sound_twiceFrom :
    let low : Code := .binary .add (.literal (.integer 1))
      (.binary .multiply (.literal (.integer 2)) (.step true (.literal (.integer 2))))
    Code.fold? low = some (.integer 7) ∧
      (∀ subject frame s, (evaluate low subject frame).run s = (.ok (.integer 7), s)) ∧
      Rule.Recoded Code.Folds (twiceFrom low) (twiceFrom (bound low)) ∧
      ∀ env events, (⟨twiceFrom low, env⟩ : Matcher).results events =
          (⟨twiceFrom (bound low), env⟩ : Matcher).results events ∧
        ((⟨twiceFrom low, env⟩ : Matcher).feedAll events).1 =
          ((⟨twiceFrom (bound low), env⟩ : Matcher).feedAll events).1 := by
  intro low
  have hfold : Code.fold? low = some (.integer 7) := by rfl
  have hverdict : Test.Recoded Code.Folds (.condition (.compare .greaterEqual (.literal (.integer 2))))
      (.condition (.compare .greaterEqual (.literal (.integer 2)))) := .condition (.refl _)
  have hfilter : Test.Recoded Code.Folds (.condition (.compare .greaterEqual low))
      (.condition (.compare .greaterEqual (bound low))) := .condition (.compare _ (folding_sound.2.1 low))
  have hrule : Rule.Recoded Code.Folds (twiceFrom low) (twiceFrom (bound low)) :=
    ⟨.refl _, .cons ⟨rfl, .chain ⟨.cons hfilter .nil, rfl, rfl, .count, hverdict, rfl⟩⟩ .nil, rfl⟩
  exact ⟨hfold, folding_sound.1 low _ hfold, hrule, folding_sound.2.2 _ _ hrule⟩

end EventRules
