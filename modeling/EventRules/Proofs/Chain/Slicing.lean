import Mathlib.Algebra.Group.Nat.Defs
import EventRules.Chain.Run

/-!
# What a take selects

The indices of a take count from the front or, below zero, from the back. If they mean places in the order
of the events handed on, the events at these places are taken, and none otherwise. Two indices that count
from different ends always mean such places among events of some number, and so do two that count from one
end in their order. A take is refused exactly where it selects nothing among events of any number.
-/

namespace EventRules.Chain
set_option autoImplicit false

open Routine Number

/-- Among `length` events the indices mean the places from `s` on, up to `e`. -/
structure Asks (length : Nat) (start : Int64) (stop : Option Int64) (s e : Int) : Prop where
  from_front : 0 ≤ start → s = start.toInt
  from_back : start < 0 → s = length + start.toInt
  to_end : stop = none → e = length
  to_front : ∀ i, stop = some i → 0 ≤ i → e = i.toInt
  to_back : ∀ i, stop = some i → i < 0 → e = length + i.toInt

/-- There are such places among `length` events. -/
structure Within (length : Nat) (s e : Int) : Prop where
  first : 0 ≤ s
  ordered : s ≤ e
  last : e ≤ length

/-- `taken` are the events from the place `s` on, up to `e`. -/
structure Selects (events : List Event) (s e : Int) (taken : List Event) : Prop where
  length : (taken.length : Int) = e - s
  each : ∀ k < taken.length, ∃ event, events[s.toNat + k]? = some event ∧ taken[k]? = some event

variable {length : Nat} {start i : Int64} {stop : Option Int64} {events : List Event}

/-! ### Indices -/

theorem indexFrom_eq (length : Nat) (i : Int64) :
    indexFrom length i = if i.toInt < 0 then length + i.toInt else i.toInt := by
  simp only [indexFrom, Int64.lt_iff_toInt_lt, Int64.toInt_zero]

theorem asks (length : Nat) (start : Int64) (stop : Option Int64) :
    Asks length start stop (indexFrom length start) ((stop.map (indexFrom length)).getD length) where
  from_front := fun h => if_neg (Int64.not_lt.mpr h)
  from_back := fun h => if_pos h
  to_end := by
    rintro rfl
    rfl
  to_front := by
    rintro i rfl h
    exact if_neg (Int64.not_lt.mpr h)
  to_back := by
    rintro i rfl h
    exact if_pos h

theorem fit64_of_bounds {n : Int} (hlo : Int64.minValue.toInt ≤ n) (hhi : n ≤ Int64.maxValue.toInt) :
    (fit64? n).isSome = true := by
  rw [fit64?, if_pos ⟨hlo, hhi⟩]
  rfl

/-- Counting from the back does not leave the range of machine numbers. -/
theorem index_fits (h : length < 2 ^ 63) (i : Int64) : (fit64? (indexFrom length i)).isSome = true := by
  have hlo := Int64.le_toInt i
  have hhi := Int64.toInt_lt i
  have hmin := Int64.toInt_minValue
  have hmax := Int64.toInt_maxValue
  rw [indexFrom_eq]
  exact fit64_of_bounds (by omega) (by omega)

theorem stop_fits (h : length < 2 ^ 63) (stop : Option Int64) :
    (fit64? ((stop.map (indexFrom length)).getD length)).isSome = true := by
  cases stop with
  | none =>
    have hmin := Int64.toInt_minValue
    have hmax := Int64.toInt_maxValue
    rw [Option.map_none, Option.getD_none]
    exact fit64_of_bounds (by omega) (by omega)
  | some i => exact index_fits h i

/-! ### Slices -/

theorem selects_of_within {s e : Int} (h : Within events.length s e) :
    Selects events s e ((events.drop s.toNat).take (e - s).toNat) := by
  obtain ⟨hs, hse, he⟩ := h
  have hlength : ((events.drop s.toNat).take (e - s).toNat).length = (e - s).toNat := by
    rw [List.length_take, List.length_drop]
    omega
  refine ⟨by rw [hlength]; omega, ?_⟩
  intro k hk
  rw [hlength] at hk
  have hplace : s.toNat + k < events.length := by omega
  refine ⟨events[s.toNat + k], List.getElem?_eq_getElem hplace, ?_⟩
  rw [List.getElem?_take_of_lt hk, List.getElem?_drop, List.getElem?_eq_getElem hplace]

theorem slice_of_within
    (h : Within events.length (indexFrom events.length start)
      ((stop.map (indexFrom events.length)).getD events.length)) :
    ∃ taken, slice? events start stop = some taken ∧
      Selects events (indexFrom events.length start)
        ((stop.map (indexFrom events.length)).getD events.length) taken := by
  refine ⟨_, ?_, selects_of_within h⟩
  obtain ⟨hs, hse, he⟩ := h
  rw [slice?]
  exact if_neg (by omega)

theorem slice_of_not_within
    (h : ¬ Within events.length (indexFrom events.length start)
      ((stop.map (indexFrom events.length)).getD events.length)) : slice? events start stop = none := by
  rw [slice?]
  refine if_pos (Decidable.byContradiction fun hinside => h ?_)
  exact ⟨by omega, by omega, by omega⟩

theorem slice_eq_none_iff : slice? events start stop = none ↔
    ¬ Within events.length (indexFrom events.length start)
      ((stop.map (indexFrom events.length)).getD events.length) := by
  constructor
  · intro hnone hwithin
    obtain ⟨taken, htaken, -⟩ := slice_of_within hwithin
    rw [hnone] at htaken
    cases htaken
  · exact slice_of_not_within

/-! ### Takes that select nothing -/

theorem empty_take_iff {stop : Int64} : isEmptyTake start (some stop) = true ↔
    (0 ≤ start ↔ 0 ≤ stop) ∧ stop < start := by
  rw [isEmptyTake, Bool.and_eq_true, beq_iff_eq, decide_eq_decide, decide_eq_true_eq]

/-- So many events that the indices mean places among them, unless they are refused. -/
def lengthFor (start : Int64) (stop : Option Int64) : Nat :=
  start.toInt.natAbs + (stop.map fun i => i.toInt.natAbs).getD 0

theorem within_of_accepted (h : isEmptyTake start stop = false) :
    Within (lengthFor start stop) (indexFrom (lengthFor start stop) start)
      ((stop.map (indexFrom (lengthFor start stop))).getD (lengthFor start stop)) := by
  cases stop with
  | none =>
    simp only [lengthFor, indexFrom_eq, Option.map_none, Option.getD_none]
    exact ⟨by omega, by omega, by omega⟩
  | some stop =>
    have hordered : ¬ ((0 ≤ start.toInt ↔ 0 ≤ stop.toInt) ∧ stop.toInt < start.toInt) := by
      rw [← Bool.not_eq_true, empty_take_iff] at h
      simpa only [Int64.le_iff_toInt_le, Int64.lt_iff_toInt_lt, Int64.toInt_zero] using h
    simp only [lengthFor, indexFrom_eq, Option.map_some, Option.getD_some]
    exact ⟨by omega, by omega, by omega⟩

theorem not_within_of_refused (h : isEmptyTake start stop = true) (length : Nat) :
    ¬ Within length (indexFrom length start) ((stop.map (indexFrom length)).getD length) := by
  cases stop with
  | none => cases h
  | some stop =>
    obtain ⟨hsame, hlt⟩ := empty_take_iff.mp h
    rintro ⟨-, hordered, -⟩
    simp only [Int64.le_iff_toInt_le, Int64.lt_iff_toInt_lt, Int64.toInt_zero, Option.map_some,
      Option.getD_some, indexFrom_eq] at hsame hlt hordered
    omega

theorem empty_take_iff_no_slice :
    isEmptyTake start stop = true ↔ ∀ events, slice? events start stop = none := by
  constructor
  · intro h events
    exact slice_of_not_within (not_within_of_refused h events.length)
  · intro hnone
    have hslice := hnone (List.replicate (lengthFor start stop) default)
    rw [slice_eq_none_iff, List.length_replicate] at hslice
    cases h : isEmptyTake start stop with
    | true => rfl
    | false => exact absurd (within_of_accepted h) hslice

theorem checkTake_fails_iff (name : String) (session : Session) :
    (∃ error, ((checkTake name (some (start, stop))).run session).1 = .error error) ↔
      isEmptyTake start stop = true := by
  cases stop with
  | none => simp [checkTake, isEmptyTake]
  | some stop =>
    rw [checkTake]
    cases isEmptyTake start (some stop) with
    | false => simp
    | true => simp

/-- A take selects the events at the places that its indices mean, and none if they mean no such places.
It is refused if and only if it selects none among events of any number. -/
theorem take_selects (start : Int64) (stop : Option Int64) :
    (∀ events : List Event, ∃ s e, Asks events.length start stop s e ∧
      (events.length < 2 ^ 63 → (fit64? s).isSome = true ∧ (fit64? e).isSome = true) ∧
      (Within events.length s e →
        ∃ taken, slice? events start stop = some taken ∧ Selects events s e taken) ∧
      (¬ Within events.length s e → slice? events start stop = none)) ∧
    ∀ name session,
      (∃ error, ((checkTake name (some (start, stop))).run session).1 = .error error) ↔
        ∀ events, slice? events start stop = none := by
  constructor
  · intro events
    refine ⟨_, _, asks events.length start stop, ?_, slice_of_within, slice_of_not_within⟩
    exact fun h => ⟨index_fits h start, stop_fits h stop⟩
  · intro name session
    rw [checkTake_fails_iff, empty_take_iff_no_slice]

/-- The last three events without the last one, and an end that only the number of events decides on. -/
theorem take_selects_from_back :
    let events : List Event := (List.range 5).map fun n => ⟨"", .null, Int64.ofNat n⟩
    (slice? events (-3) (some (-1))).map (List.map Event.timestamp) = some [2, 3] ∧
      slice? events (-3) (some 6) = none ∧
      (∃ taken, slice? events (-3) (some (-1)) = some taken ∧ Selects events 2 4 taken) ∧
      ¬ (∀ events, slice? events (-3) (some 6) = none) ∧
      ∀ events, slice? events (-1) (some (-2)) = none := by
  intro events
  obtain ⟨s, e, hasks, -, hwithin, -⟩ := (take_selects (-3) (some (-1))).1 events
  obtain rfl : s = 2 := hasks.from_back (by decide)
  obtain rfl : e = 4 := hasks.to_back (-1) rfl (by decide)
  refine ⟨by decide +kernel, by decide +kernel, hwithin ⟨by decide, by decide, by decide⟩, ?_, ?_⟩
  · rw [← (take_selects (-3) (some 6)).2 "chain_1" ⟨.empty, []⟩]
    rintro ⟨error, herror⟩
    cases herror
  · rw [← (take_selects (-1) (some (-2))).2 "chain_1" ⟨.empty, []⟩]
    exact ⟨_, rfl⟩

end EventRules.Chain
