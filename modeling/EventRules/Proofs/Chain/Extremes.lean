import EventRules.Evaluation
import EventRules.Proofs.Value.Comparing

/-!
# The smallest and the greatest reading

A reduction to the smallest number goes through the readings in their order and holds on to the best one so
far; a later one takes its place only if it is strictly less. So it ends with the first of the readings that
are at most as great as all others. The greatest number is the smallest one in the opposite order.
-/

namespace EventRules
set_option autoImplicit false

/-! ### Holding on to the best element -/

section

variable {α β : Type} [LinearOrder β] {precedes : α → α → Prop} [DecidableRel precedes]

/-- The element that is left when each one that precedes the best one so far takes its place. -/
def bestOf (precedes : α → α → Prop) [DecidableRel precedes] (best : α) (vs : List α) : α :=
  vs.foldl (fun best v => if precedes v best then v else best) best

/-- The best element is the first of the least ones, if the order is that of a key. -/
theorem bestOf_first {key : α → β} {best : α} {vs : List α}
    (h : ∀ a ∈ best :: vs, ∀ b ∈ best :: vs, precedes a b ↔ key a < key b) :
    ∃ before after, best :: vs = before ++ bestOf precedes best vs :: after ∧
      (∀ v ∈ best :: vs, key (bestOf precedes best vs) ≤ key v) ∧
      ∀ v ∈ before, key (bestOf precedes best vs) < key v := by
  induction vs generalizing best with
  | nil =>
    refine ⟨[], [], rfl, ?_, nofun⟩
    intro v hv
    rw [List.mem_singleton.mp hv]
    exact le_rfl
  | cons w vs ih =>
    have hbest : best ∈ best :: w :: vs := List.mem_cons_self
    have hw : w ∈ best :: w :: vs := List.mem_cons_of_mem _ List.mem_cons_self
    by_cases hlt : key w < key best
    · have hstep : bestOf precedes best (w :: vs) = bestOf precedes w vs :=
        congrArg (bestOf precedes · vs) (if_pos ((h w hw best hbest).mpr hlt))
      obtain ⟨before, after, hsplit, hleast, hfirst⟩ :=
        ih fun a ha b hb => h a (List.mem_cons_of_mem _ ha) b (List.mem_cons_of_mem _ hb)
      rw [hstep]
      have hless := (hleast w List.mem_cons_self).trans_lt hlt
      refine ⟨best :: before, after, ?_, List.forall_mem_cons.mpr ⟨hless.le, hleast⟩,
        List.forall_mem_cons.mpr ⟨hless, hfirst⟩⟩
      rw [hsplit, List.cons_append]
    · have hstep : bestOf precedes best (w :: vs) = bestOf precedes best vs :=
        congrArg (bestOf precedes · vs) (if_neg fun hp => hlt ((h w hw best hbest).mp hp))
      have hsub : best :: vs ⊆ best :: w :: vs := List.cons_subset_cons _ (List.subset_cons_self w vs)
      obtain ⟨before, after, hsplit, hleast, hfirst⟩ :=
        ih fun a ha b hb => h a (hsub ha) b (hsub hb)
      rw [hstep]
      obtain ⟨hle, hothers⟩ := List.forall_mem_cons.mp hleast
      have hall : ∀ v ∈ best :: w :: vs, key (bestOf precedes best vs) ≤ key v :=
        List.forall_mem_cons.mpr ⟨hle, List.forall_mem_cons.mpr ⟨hle.trans (not_lt.mp hlt), hothers⟩⟩
      cases before with
      | nil =>
        obtain ⟨hkept, -⟩ := List.cons.inj hsplit
        exact ⟨[], w :: vs, by rw [← hkept, List.nil_append], hall, nofun⟩
      | cons b before =>
        obtain ⟨rfl, hbehind⟩ := List.cons.inj hsplit
        -- what does not precede the first element does not precede a lesser one behind it
        obtain ⟨hless, hfirst⟩ := List.forall_mem_cons.mp hfirst
        refine ⟨best :: w :: before, after, ?_, hall, List.forall_mem_cons.mpr
          ⟨hless, List.forall_mem_cons.mpr ⟨hless.trans_le (not_lt.mp hlt), hfirst⟩⟩⟩
        rw [List.cons_append, List.cons_append]
        exact congrArg (fun l => best :: w :: l) hbehind

end

namespace Chain

variable {batch : List Event}

/-- The reading is a number. -/
def isNumber (e : Event) : Bool := e.value.toNumber?.isSome

/-- The value compares so with all numbers of the batch. -/
def Extremal (op : CompareOp) (batch : List Event) (v : Value) : Prop :=
  ∀ e ∈ batch, isNumber e = true → Value.compare op v e.value = true

theorem numbers_eq_map (batch : List Event) : numbers batch = (batch.filter isNumber).map Event.value := by
  rw [numbers, List.filter_map]
  rfl

theorem mem_numbers {v : Value} : v ∈ numbers batch ↔ ∃ e ∈ batch, isNumber e = true ∧ e.value = v := by
  rw [numbers_eq_map]
  simp only [List.mem_map, List.mem_filter, and_assoc]

/-- Where a number stands among the numbers, an event stands in the batch. -/
theorem event_of_numbers {before after : List Value} {v : Value}
    (h : numbers batch = before ++ v :: after) :
    ∃ earlier e later, batch = earlier ++ e :: later ∧ numbers earlier = before ∧ e.value = v ∧
      isNumber e = true := by
  rw [numbers_eq_map] at h
  obtain ⟨xs, ys, hxs, hbefore, hys⟩ := List.map_eq_append_iff.mp h
  obtain ⟨e, zs, rfl, hvalue, -⟩ := List.map_eq_cons_iff.mp hys
  obtain ⟨left, right, rfl, hleft, hright⟩ := List.filter_eq_append_iff.mp hxs
  obtain ⟨skipped, later, rfl, hskipped, he, -⟩ := List.filter_eq_cons_iff.mp hright
  refine ⟨left ++ skipped, e, later, (List.append_assoc _ _ _).symm, ?_, hvalue, he⟩
  have hnone : skipped.filter isNumber = [] := List.filter_eq_nil_iff.mpr hskipped
  rw [numbers_eq_map, List.filter_append, hnone, List.append_nil, hleft, hbefore]

/-! ### The order of the numbers -/

/-- The number that a value with a decimal is compared as. -/
def size (v : Value) : ℚ := (v.toDecimal?.map Number.Decimal.toRat).getD 0

theorem compare_sizes (op : CompareOp) {a b : Value} (ha : a.toDecimal?.isSome)
    (hb : b.toDecimal?.isSome) : Value.compare op a b = true ↔ op.Relates (size a) (size b) := by
  obtain ⟨x, hx⟩ := Option.isSome_iff_exists.mp ha
  obtain ⟨y, hy⟩ := Option.isSome_iff_exists.mp hb
  rw [Value.compare_iff op hx hy, size, size, hx, hy]
  exact Iff.rfl

theorem looseCompare_sizes {a b : Value} (ha : a.toDecimal?.isSome) (hb : b.toDecimal?.isSome) :
    Value.looseCompare? a b = some (cmp (size a) (size b)) := by
  obtain ⟨x, hx⟩ := Option.isSome_iff_exists.mp ha
  obtain ⟨y, hy⟩ := Option.isSome_iff_exists.mp hb
  rw [Value.looseCompare?, size, size, hx, hy]
  exact congrArg some (x.compare_eq y)

/-- The direction and the comparison are those of the order of a key. -/
structure Ordered {β : Type} [LinearOrder β] (key : ℚ → β) (direction : Ordering) (op : CompareOp) :
    Prop where
  precedes : ∀ x y, cmp x y = direction ↔ key x < key y
  relates : ∀ x y, op.Relates x y ↔ key x ≤ key y

theorem ascending : Ordered id .lt .lessEqual :=
  ⟨fun _ _ => cmp_eq_lt_iff _ _, fun _ _ => Iff.rfl⟩

theorem descending : Ordered OrderDual.toDual .gt .greaterEqual :=
  ⟨fun _ _ => cmp_eq_gt_iff _ _, fun _ _ => Iff.rfl⟩

variable {β : Type} [LinearOrder β] {key : ℚ → β} {direction : Ordering} {op : CompareOp}

/-- The extreme one of values that have decimals is the first that compares so with all of them. -/
theorem extreme_first (ho : Ordered key direction op) {vs : List Value} (hvs : vs ≠ [])
    (h : ∀ v ∈ vs, v.toDecimal?.isSome) :
    ∃ before after, vs = before ++ extreme direction vs :: after ∧
      (∀ v ∈ vs, Value.compare op (extreme direction vs) v = true) ∧
      ∀ v ∈ before, Value.compare op v (extreme direction vs) = false := by
  obtain ⟨v, vs, rfl⟩ := List.exists_cons_of_ne_nil hvs
  have hprecedes : ∀ a ∈ v :: vs, ∀ b ∈ v :: vs,
      Value.looseCompare? a b = some direction ↔ (key ∘ size) a < (key ∘ size) b := by
    intro a ha b hb
    rw [looseCompare_sizes (h a ha) (h b hb), Option.some_inj, ho.precedes]
    rfl
  have hrelates : ∀ a ∈ v :: vs, ∀ b ∈ v :: vs,
      Value.compare op a b = true ↔ key (size a) ≤ key (size b) := by
    intro a ha b hb
    rw [compare_sizes op (h a ha) (h b hb), ho.relates]
  have hbest : extreme direction (v :: vs) =
      bestOf (fun a b => Value.looseCompare? a b = some direction) v vs := rfl
  obtain ⟨before, after, hsplit, hleast, hfirst⟩ := bestOf_first hprecedes
  rw [← hbest] at hsplit hleast hfirst
  generalize extreme direction (v :: vs) = best at hsplit hleast hfirst ⊢
  have hmem : best ∈ v :: vs := by
    rw [hsplit]
    exact List.mem_append_right before List.mem_cons_self
  refine ⟨before, after, hsplit, ?_, ?_⟩
  · intro a ha
    exact (hrelates _ hmem a ha).mpr (hleast a ha)
  · intro a ha
    have hin : a ∈ v :: vs := by
      rw [hsplit]
      exact List.mem_append_left _ ha
    rw [← Bool.not_eq_true, hrelates a hin _ hmem]
    exact not_le.mpr (hfirst a ha)

/-- The batch has an extreme number, and it is the reading of the first event that has one. -/
theorem extreme_event (ho : Ordered key direction op) (hsome : ∃ e ∈ batch, isNumber e = true)
    (hdecimal : ∀ e ∈ batch, isNumber e = true → e.value.toDecimal?.isSome) :
    ∃ earlier e later, batch = earlier ++ e :: later ∧ isNumber e = true ∧
      Extremal op batch e.value ∧ (∀ x ∈ earlier, isNumber x = true → ¬ Extremal op batch x.value) ∧
      extreme direction (numbers batch) = e.value := by
  have hne : numbers batch ≠ [] := by
    obtain ⟨e, he, hn⟩ := hsome
    exact List.ne_nil_of_mem (mem_numbers.mpr ⟨e, he, hn, rfl⟩)
  have hdecimals : ∀ v ∈ numbers batch, v.toDecimal?.isSome := by
    intro v hv
    obtain ⟨e, he, hn, rfl⟩ := mem_numbers.mp hv
    exact hdecimal e he hn
  obtain ⟨before, after, hsplit, hall, hfirst⟩ := extreme_first ho hne hdecimals
  obtain ⟨earlier, e, later, hbatch, rfl, hvalue, hn⟩ := event_of_numbers hsplit
  rw [← hvalue] at hall hfirst
  refine ⟨earlier, e, later, hbatch, hn, ?_, ?_, hvalue.symm⟩
  · intro x hx hnumber
    exact hall x.value (mem_numbers.mpr ⟨x, hx, hnumber, rfl⟩)
  · intro x hx hnumber hextremal
    -- an earlier extreme number would compare so with the extreme one too
    have hmem : e ∈ batch := by
      rw [hbatch]
      exact List.mem_append_right earlier List.mem_cons_self
    have hfalse := hfirst x.value (mem_numbers.mpr ⟨x, hx, hnumber, rfl⟩)
    rw [hextremal e hmem hn] at hfalse
    cases hfalse

theorem numbers_filter (batch : List Event) : numbers (batch.filter isNumber) = numbers batch := by
  rw [numbers_eq_map, numbers_eq_map, List.filter_filter]
  simp only [Bool.and_self]

/-- `min` gives the reading of the first event whose number is at most as great as all numbers of the batch,
and `max` that of the first one whose number is at least as great; readings that are no numbers do not
matter to them. -/
theorem extremes_first (eval : Evaluator) (batch : List Event) (frame : Frame) :
    ((∃ e ∈ batch, isNumber e = true) →
      (∀ e ∈ batch, isNumber e = true → e.value.toDecimal?.isSome) →
      ∀ how op, (how, op) ∈ [(Aggregation.min, CompareOp.lessEqual), (.max, .greaterEqual)] →
        ∃ earlier e later, batch = earlier ++ e :: later ∧ isNumber e = true ∧
          Extremal op batch e.value ∧ (∀ x ∈ earlier, isNumber x = true → ¬ Extremal op batch x.value) ∧
          ∀ s, (aggregate eval how batch frame).run s = (.ok e.value, s)) ∧
    ∀ how ∈ [Aggregation.min, .max],
      aggregate eval how batch frame = aggregate eval how (batch.filter isNumber) frame := by
  constructor
  · intro hsome hdecimal how op hmem
    simp only [List.mem_cons, List.not_mem_nil, or_false, Prod.mk.injEq] at hmem
    rcases hmem with ⟨rfl, rfl⟩ | ⟨rfl, rfl⟩
    · obtain ⟨earlier, e, later, hbatch, hn, hall, hfirst, hvalue⟩ :=
        extreme_event ascending hsome hdecimal
      exact ⟨earlier, e, later, hbatch, hn, hall, hfirst, fun _ => by rw [aggregate, hvalue]; rfl⟩
    · obtain ⟨earlier, e, later, hbatch, hn, hall, hfirst, hvalue⟩ :=
        extreme_event descending hsome hdecimal
      exact ⟨earlier, e, later, hbatch, hn, hall, hfirst, fun _ => by rw [aggregate, hvalue]; rfl⟩
  · intro how hmem
    simp only [List.mem_cons, List.not_mem_nil, or_false] at hmem
    rcases hmem with rfl | rfl
    · rw [aggregate, aggregate, numbers_filter]
    · rw [aggregate, aggregate, numbers_filter]

/-- A text that is no number, a sum of floats, a text that spells the same number, and an integer. -/
def mixedNumbers : List Event :=
  [⟨"a", .text "off", 0⟩, ⟨"b", .float (0.1 + 0.2), 1⟩, ⟨"c", .text "0.3", 2⟩, ⟨"d", .integer 1, 3⟩]

/-- The view when the last one has come. -/
def mixedView : Frame := ⟨⟨"d", .integer 1, 3⟩, none, [], .empty⟩

/-- Of the two equal numbers the first one is the smallest. -/
theorem extremes_first_of_mixedNumbers :
    (∃ e ∈ mixedNumbers, isNumber e = true) ∧
    (∀ e ∈ mixedNumbers, isNumber e = true → e.value.toDecimal?.isSome) ∧
    (∃ earlier e later, mixedNumbers = earlier ++ e :: later ∧ isNumber e = true ∧
      Extremal .lessEqual mixedNumbers e.value ∧
      (∀ x ∈ earlier, isNumber x = true → ¬ Extremal .lessEqual mixedNumbers x.value) ∧
      ∀ s, (aggregate evaluate .min mixedNumbers mixedView).run s = (.ok e.value, s)) ∧
    extreme .lt (numbers mixedNumbers) = .float (0.1 + 0.2) := by
  have hsome : ∃ e ∈ mixedNumbers, isNumber e = true := by decide +kernel
  have hdecimal : ∀ e ∈ mixedNumbers, isNumber e = true → e.value.toDecimal?.isSome := by decide +kernel
  have hmin := (extremes_first evaluate mixedNumbers mixedView).1 hsome hdecimal .min .lessEqual
    List.mem_cons_self
  exact ⟨hsome, hdecimal, hmin, by decide +kernel⟩

end Chain

end EventRules
