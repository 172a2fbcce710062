import Mathlib.Data.List.Forall2
import Mathlib.Data.List.Induction
import Mathlib.Order.Bounds.Basic

/-!
# Patterns embedded in runs of events

A pattern is a list of conditions. It embeds in a list of events if some of them, in their order, meet
the conditions one after the other. A scan that tests each event against the next condition of a
pattern that is repeated without end never falls behind: after any events it has met as many conditions
as can be embedded in them, because a longer piece of the pattern ends either within the events before
the last one or with the last one.
-/

namespace EventRules
set_option autoImplicit false

variable {α : Type}

def Embeds (pattern : List (α → Bool)) (events : List α) : Prop :=
  ∃ chosen, chosen.Sublist events ∧ List.Forall₂ (fun c e => c e = true) pattern chosen

theorem embeds_nil (events : List α) : Embeds [] events := ⟨[], List.nil_sublist events, .nil⟩

theorem not_embeds_nil (pattern : List (α → Bool)) (c : α → Bool) : ¬ Embeds (pattern ++ [c]) [] := by
  rintro ⟨chosen, hsub, hmeets⟩
  obtain rfl := List.sublist_nil.mp hsub
  have hlength := hmeets.length_eq
  simp at hlength

/-- The last condition is met by the last event, or by one before it. -/
theorem embeds_concat_iff {pattern : List (α → Bool)} {c : α → Bool} {events : List α} {e : α} :
    Embeds (pattern ++ [c]) (events ++ [e]) ↔
      Embeds (pattern ++ [c]) events ∨ (Embeds pattern events ∧ c e = true) := by
  constructor
  · rintro ⟨chosen, hsub, hmeets⟩
    obtain ⟨before, last, rfl, hbefore, hlast⟩ := List.sublist_append_iff.mp hsub
    rcases List.sublist_singleton.mp hlast with rfl | rfl
    · rw [List.append_nil] at hmeets
      exact Or.inl ⟨before, hbefore, hmeets⟩
    · obtain ⟨hpattern, hc⟩ : List.Forall₂ (fun c e => c e = true) pattern before ∧ c e = true := by
        have hreverse := List.rel_reverse hmeets
        simp only [List.reverse_append, List.reverse_singleton, List.singleton_append,
          List.forall₂_cons] at hreverse
        exact ⟨List.forall₂_reverse_iff.mp hreverse.2, hreverse.1⟩
      exact Or.inr ⟨⟨before, hbefore, hpattern⟩, hc⟩
  · rintro (⟨chosen, hsub, hmeets⟩ | ⟨⟨chosen, hsub, hmeets⟩, hc⟩)
    · exact ⟨chosen, hsub.trans (List.sublist_append_left events [e]), hmeets⟩
    · refine ⟨chosen ++ [e], hsub.append (List.Sublist.refl [e]), ?_⟩
      exact List.rel_append hmeets (.cons hc .nil)

/-! ### Repeated patterns -/

/-- The condition at a place of the pattern that is repeated without end. -/
def conditionAt (pattern : List (α → Bool)) (i : Nat) : α → Bool :=
  (pattern[i % pattern.length]?).getD fun _ => false

def firstConditions (pattern : List (α → Bool)) (m : Nat) : List (α → Bool) :=
  (List.range m).map (conditionAt pattern)

theorem firstConditions_succ (pattern : List (α → Bool)) (m : Nat) :
    firstConditions pattern (m + 1) = firstConditions pattern m ++ [conditionAt pattern m] := by
  simp [firstConditions, List.range_succ]

theorem firstConditions_mul (pattern : List (α → Bool)) (k : Nat) :
    firstConditions pattern (k * pattern.length) = (List.replicate k pattern).flatten := by
  induction k with
  | zero => simp [firstConditions]
  | succ k ih =>
    have hround : (List.range pattern.length).map
        (fun i => conditionAt pattern (k * pattern.length + i)) = pattern := by
      apply List.ext_getElem
      · simp
      · intro i hi hi'
        simp only [List.getElem_map, List.getElem_range, conditionAt]
        rw [Nat.mul_add_mod', Nat.mod_eq_of_lt hi', List.getElem?_eq_getElem hi', Option.getD_some]
    rw [Nat.succ_mul, firstConditions, List.range_add, List.map_append, List.map_map,
      List.replicate_succ', List.flatten_append, ← ih, List.flatten_singleton]
    exact congrArg (firstConditions pattern (k * pattern.length) ++ ·) hround

/-! ### Scanning -/

/-- How many conditions have been met, if each event is tested against the next one. -/
def progress (pattern : List (α → Bool)) (met : Nat) : List α → Nat
  | [] => met
  | e :: es => progress pattern (if conditionAt pattern met e then met + 1 else met) es

theorem progress_append (pattern : List (α → Bool)) (met : Nat) (es fs : List α) :
    progress pattern met (es ++ fs) = progress pattern (progress pattern met es) fs := by
  induction es generalizing met with
  | nil => rfl
  | cons e es ih => exact ih _

theorem embeds_firstConditions_iff (pattern : List (α → Bool)) (events : List α) :
    ∀ m, Embeds (firstConditions pattern m) events ↔ m ≤ progress pattern 0 events := by
  induction events using List.reverseRecOn with
  | nil =>
    intro m
    cases m with
    | zero => simp [firstConditions, embeds_nil]
    | succ m =>
      rw [firstConditions_succ]
      simp [not_embeds_nil, progress]
  | append_singleton events e ih =>
    intro m
    rw [progress_append]
    generalize hmet : progress pattern 0 events = met at ih
    rw [progress, progress]
    cases m with
    | zero => simp [firstConditions, embeds_nil]
    | succ m =>
      rw [firstConditions_succ, embeds_concat_iff, ← firstConditions_succ, ih, ih]
      -- one condition more than was met before is met only by the last event
      rcases Nat.lt_trichotomy m met with hlt | rfl | hgt
      · split <;> omega
      · cases conditionAt pattern m e <;> simp
      · split <;> omega

/-- The rounds that have been completed are as many as can be embedded. -/
theorem rounds_greatest {pattern : List (α → Bool)} (hpattern : pattern ≠ []) (events : List α) :
    IsGreatest {k | Embeds (List.replicate k pattern).flatten events}
      (progress pattern 0 events / pattern.length) := by
  have hlength : 0 < pattern.length := List.length_pos_iff.mpr hpattern
  have hiff : ∀ k, Embeds (List.replicate k pattern).flatten events ↔
      k ≤ progress pattern 0 events / pattern.length := by
    intro k
    rw [← firstConditions_mul, embeds_firstConditions_iff, Nat.le_div_iff_mul_le hlength]
  constructor
  · exact (hiff _).mpr (Nat.le_refl _)
  · intro k hk
    exact (hiff k).mp hk

end EventRules
