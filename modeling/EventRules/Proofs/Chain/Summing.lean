import Mathlib.Data.List.Perm.Basic
import EventRules.Evaluation
import EventRules.Proofs.Number.Exactness

/-!
# Sums of integers

Integers are summed in the order of the events. The sum is an integer if and only if no sum on the way
leaves the range; otherwise it is the float of the same total, even where that is in range again. So the
order of the events is of no importance exactly where the gains fit by themselves, and the losses too.
-/

namespace EventRules.Chain
set_option autoImplicit false

open Number

/-! ### Totals -/

def total (ns : List Int64) : Int := (ns.map Int64.toInt).sum

/-- The positive ones of the integers together. -/
def gains (ns : List Int64) : Int := (ns.map fun n => max 0 n.toInt).sum

/-- The negative ones of the integers together. -/
def losses (ns : List Int64) : Int := (ns.map fun n => min 0 n.toInt).sum

/-- A signed 64-bit integer has this value. -/
def InRange (n : Int) : Prop := ∃ t : Int64, t.toInt = n

/-- Adding the integers one after the other never leaves the range. -/
def SumsFit (ns : List Int64) : Prop := ∀ p, p <+: ns → InRange (total p)

@[simp] theorem total_nil : total [] = 0 := rfl

@[simp] theorem total_cons (n : Int64) (ns : List Int64) : total (n :: ns) = n.toInt + total ns := rfl

@[simp] theorem gains_cons (n : Int64) (ns : List Int64) : gains (n :: ns) = max 0 n.toInt + gains ns := rfl

@[simp] theorem losses_cons (n : Int64) (ns : List Int64) :
    losses (n :: ns) = min 0 n.toInt + losses ns := rfl

variable {ms ns : List Int64}

theorem gains_of_perm (h : ms.Perm ns) : gains ms = gains ns := (h.map _).sum_eq

theorem losses_of_perm (h : ms.Perm ns) : losses ms = losses ns := (h.map _).sum_eq

/-- What a part sums to lies between the losses and the gains. -/
theorem total_of_part (h : ms.Sublist ns) : losses ns ≤ total ms ∧ total ms ≤ gains ns := by
  induction h with
  | slnil => exact ⟨le_refl 0, le_refl 0⟩
  | cons n h ih =>
    rw [losses_cons, gains_cons]
    omega
  | cons_cons n h ih =>
    rw [losses_cons, gains_cons, total_cons]
    omega

/-- The gains and the losses are what two parts sum to. -/
theorem total_of_signs (ns : List Int64) :
    total (ns.filter (0 < ·)) = gains ns ∧ total (ns.filter fun n => !decide (0 < n)) = losses ns := by
  induction ns with
  | nil => exact ⟨rfl, rfl⟩
  | cons n ns ih =>
    have hzero : (0 : Int64).toInt = 0 := rfl
    obtain ⟨hgains, hlosses⟩ := ih
    by_cases hn : 0 < n
    · rw [List.filter_cons_of_pos (by simpa using hn), List.filter_cons_of_neg (by simpa using hn)]
      rw [Int64.lt_iff_toInt_lt, hzero] at hn
      rw [total_cons, hgains, hlosses, gains_cons, losses_cons]
      omega
    · rw [List.filter_cons_of_neg (by simpa using hn), List.filter_cons_of_pos (by simpa using hn)]
      rw [Int64.lt_iff_toInt_lt, hzero] at hn
      rw [total_cons, hgains, hlosses, gains_cons, losses_cons]
      omega

theorem inRange_between {n low high : Int} (hlow : InRange low) (hhigh : InRange high)
    (h : low ≤ n ∧ n ≤ high) : InRange n := by
  obtain ⟨t, rfl⟩ := hlow
  obtain ⟨u, rfl⟩ := hhigh
  have hmin := Int64.le_toInt t
  have hmax := Int64.toInt_lt u
  exact ⟨Int64.ofInt n, Int64.toInt_ofInt_of_le (by omega) (by omega)⟩

/-- Every order of the integers fits exactly if the gains and the losses do. -/
theorem sumsFit_in_any_order : (∀ ms : List Int64, ms.Perm ns → SumsFit ms) ↔
    InRange (gains ns) ∧ InRange (losses ns) := by
  obtain ⟨hgains, hlosses⟩ := total_of_signs ns
  have hparts := List.filter_append_perm (fun n => decide (0 < n)) ns
  -- the worst orders are those with all gains first and with all losses first
  refine ⟨fun h => ⟨?_, ?_⟩, fun h ms hms p hp => ?_⟩
  · rw [← hgains]
    exact h _ hparts _ (List.prefix_append _ _)
  · rw [← hlosses]
    exact h _ (List.perm_append_comm.trans hparts) _ (List.prefix_append _ _)
  · have hbetween := total_of_part hp.sublist
    rw [gains_of_perm hms, losses_of_perm hms] at hbetween
    exact inRange_between h.2 h.1 hbetween

/-! ### Adding one after the other -/

theorem addIntegers_eq_some {t r : Int64} : addIntegers? t (ns.map .integer) = some r ↔
    r.toInt = t.toInt + total ns ∧ ∀ p, p <+: ns → InRange (t.toInt + total p) := by
  induction ns generalizing t with
  | nil =>
    simp only [List.map_nil, addIntegers?, Option.some.injEq, total_nil, Int.add_zero, List.prefix_nil]
    refine ⟨?_, fun h => Int64.toInt_inj.mp h.1.symm⟩
    rintro rfl
    exact ⟨rfl, fun p hp => ⟨t, by simp [hp]⟩⟩
  | cons n ns ih =>
    change (fit64? (t.toInt + n.toInt)).bind (fun u => addIntegers? u (ns.map .integer)) = some r ↔ _
    cases hfit : fit64? (t.toInt + n.toInt) with
    | none =>
      refine ⟨fun h => (nomatch h), fun h => ?_⟩
      obtain ⟨s, hs⟩ := h.2 [n] ((List.prefix_cons_inj n).mpr List.nil_prefix)
      rw [total_cons, total_nil, Int.add_zero] at hs
      rw [fit64_eq_some_iff.mpr hs] at hfit
      cases hfit
    | some u =>
      have hu := fit64_eq_some_iff.mp hfit
      rw [Option.bind_some, ih, hu, total_cons, Int.add_assoc]
      refine and_congr_right fun hr => ⟨fun h p hp => ?_, fun h p hp => ?_⟩
      · rcases List.prefix_cons_iff.mp hp with rfl | ⟨q, rfl, hq⟩
        · exact ⟨t, by simp⟩
        · obtain ⟨s, hs⟩ := h q hq
          exact ⟨s, by rw [hs, total_cons, Int.add_assoc]⟩
      · obtain ⟨s, hs⟩ := h (n :: p) ((List.prefix_cons_inj n).mpr hp)
        exact ⟨s, by rw [hs, total_cons, Int.add_assoc]⟩

/-- In decimals nothing is lost, so long as there is room. -/
theorem addDecimals_eq {d : Decimal} (hscale : d.scale = 0)
    (hroom : d.coefficient.natAbs + ns.length * 2 ^ 63 < 2 ^ 96) : ∃ e : Decimal,
    addDecimals? d (ns.map .integer) = some e ∧ e.coefficient = d.coefficient + total ns ∧ e.scale = 0 := by
  induction ns generalizing d with
  | nil => exact ⟨d, rfl, (Int.add_zero _).symm, hscale⟩
  | cons n ns ih =>
    have hlow := Int64.le_toInt n
    have hhigh := Int64.toInt_lt n
    rw [List.length_cons] at hroom
    have hfits : (d.coefficient + n.toInt).natAbs < Nat.pow 2 96 := by
      change _ < 2 ^ 96
      omega
    have hadd : d.add? (Decimal.ofInt64 n) = some ⟨d.coefficient + n.toInt, 0, hfits, by decide⟩ := by
      rw [Decimal.add_unscaled hscale rfl]
      exact dif_pos ⟨hfits, by decide⟩
    obtain ⟨e, he, hcoefficient, hscale'⟩ := ih
      (d := ⟨d.coefficient + n.toInt, 0, hfits, by decide⟩) rfl (by dsimp only; omega)
    refine ⟨e, ?_, ?_, hscale'⟩
    · change (d.add? (Decimal.ofInt64 n)).bind (fun t => addDecimals? t (ns.map .integer)) = _
      rw [hadd, Option.bind_some, he]
    · rw [hcoefficient, total_cons, Int.add_assoc]

/-! ### The sum -/

theorem sum_integers_iff {t : Int64} : sum (ns.map .integer) = .integer t ↔ t.toInt = total ns ∧ SumsFit ns := by
  have hzero : (0 : Int64).toInt = 0 := rfl
  have hadd : addIntegers? 0 (ns.map .integer) = some t ↔ _ := addIntegers_eq_some
  simp only [hzero, Int.zero_add] at hadd
  refine Iff.trans ?_ hadd
  unfold sum
  cases addIntegers? 0 (ns.map .integer) with
  | some n => simp
  | none =>
    refine ⟨fun h => ?_, fun h => (nomatch h)⟩
    dsimp only at h
    split at h <;> cases h

theorem decimal_total (h : ns.length < 2 ^ 33) : ∃ d : Decimal,
    addDecimals? .zero (ns.map .integer) = some d ∧ d.toFloat = Float.ofInt (total ns) := by
  have hroom : Decimal.zero.coefficient.natAbs + ns.length * 2 ^ 63 < 2 ^ 96 := by
    change 0 + _ < _
    omega
  obtain ⟨d, hd, hcoefficient, hscale⟩ := addDecimals_eq rfl hroom
  refine ⟨d, hd, ?_⟩
  rw [d.toFloat_unscaled hscale, hcoefficient]
  exact congrArg Float.ofInt (Int.zero_add _)

theorem sum_of_unfit (h : ¬SumsFit ns) : ∃ x, sum (ns.map .integer) = .float x ∧
    (ns.length < 2 ^ 33 → x = Float.ofInt (total ns)) := by
  cases hadd : addIntegers? 0 (ns.map .integer) with
  | some n =>
    have hsum : sum (ns.map .integer) = .integer n := by rw [sum, hadd]
    exact absurd (sum_integers_iff.mp hsum).2 h
  | none =>
    cases hdecimal : addDecimals? .zero (ns.map .integer) with
    | some d =>
      refine ⟨d.toFloat, by rw [sum, hadd, hdecimal], fun hlength => ?_⟩
      obtain ⟨e, he, hfloat⟩ := decimal_total hlength
      rw [hdecimal] at he
      cases he
      exact hfloat
    | none =>
      refine ⟨_, by rw [sum, hadd, hdecimal], fun hlength => ?_⟩
      obtain ⟨e, he, -⟩ := decimal_total hlength
      rw [hdecimal] at he
      cases he

/-! ### Batches of integers -/

/-- A list that rearranges the images of some elements has rearranged the elements. -/
theorem rearranged_of_map {α β : Type} {f : α → β} {xs : List β} {ys : List α} (h : xs.Perm (ys.map f)) :
    ∃ zs : List α, xs = zs.map f ∧ zs.Perm ys :=
  (congrFun (congrFun (List.eq_map_comp_perm f) xs) ys).mpr h

theorem numbers_of_integers {batch : List Event} (h : batch.map Event.value = ns.map .integer) :
    numbers batch = ns.map .integer := by
  rw [numbers, h, List.filter_eq_self]
  intro v hv
  obtain ⟨n, -, rfl⟩ := List.mem_map.mp hv
  rfl

section

variable {batch : List Event} {eval : Evaluator} {frame : Frame} {s : Session}

theorem run_sum (h : batch.map Event.value = ns.map .integer) :
    (aggregate eval .sum batch frame).run s = (.ok (sum (ns.map .integer)), s) := by
  rw [← numbers_of_integers h]
  rfl

theorem run_sum_iff (h : batch.map Event.value = ns.map .integer) (t : Int64) :
    (aggregate eval .sum batch frame).run s = (.ok (.integer t), s) ↔ t.toInt = total ns ∧ SumsFit ns := by
  rw [run_sum h, ← sum_integers_iff]
  simp

/-- The orders of the events are those of their integers. -/
theorem sums_in_any_order (h : batch.map Event.value = ns.map .integer) :
    (∀ rearranged : List Event, rearranged.Perm batch →
      ∃ t, (aggregate eval .sum rearranged frame).run s = (.ok (.integer t), s)) ↔
    ∀ ms : List Int64, ms.Perm ns → SumsFit ms := by
  constructor
  · intro hany ms hms
    have hvalues : (ms.map Value.integer).Perm (batch.map Event.value) := h ▸ hms.map _
    obtain ⟨es, hes, hperm⟩ := rearranged_of_map hvalues
    obtain ⟨t, ht⟩ := hany es hperm
    exact ((run_sum_iff hes.symm t).mp ht).2
  · intro hfit es hperm
    have hvalues : (es.map Event.value).Perm (ns.map Value.integer) := h ▸ hperm.map _
    obtain ⟨ms, hes, hms⟩ := rearranged_of_map hvalues
    obtain ⟨t, ht⟩ := hfit ms hms ms (List.prefix_refl ms)
    exact ⟨t, (run_sum_iff hes t).mpr ⟨ht, hfit ms hms⟩⟩

/-- The sum of integers is the integer that they sum to if and only if they do so without leaving the range
on the way, and a float otherwise; and it is an integer whatever the order of the events if and only if the
gains by themselves are in range and so are the losses. -/
theorem sum_of_integers (h : batch.map Event.value = ns.map .integer) (eval : Evaluator) (frame : Frame)
    (s : Session) :
    (∀ t : Int64, (aggregate eval .sum batch frame).run s = (.ok (.integer t), s) ↔
      t.toInt = total ns ∧ SumsFit ns) ∧
    (¬SumsFit ns → ∃ x, (aggregate eval .sum batch frame).run s = (.ok (.float x), s) ∧
      (ns.length < 2 ^ 33 → x = Float.ofInt (total ns))) ∧
    ((∀ rearranged : List Event, rearranged.Perm batch →
      ∃ t, (aggregate eval .sum rearranged frame).run s = (.ok (.integer t), s)) ↔
      InRange (gains ns) ∧ InRange (losses ns)) := by
  refine ⟨run_sum_iff h, fun hunfit => ?_, (sums_in_any_order h).trans sumsFit_in_any_order⟩
  obtain ⟨x, hx, hexact⟩ := sum_of_unfit hunfit
  exact ⟨x, by rw [run_sum h, hx], hexact⟩

end

/-- Two ways up to the largest integer less one: the first has gone beyond it. -/
def upAndBack : List Event := [⟨"a", .integer Int64.maxValue, 0⟩, ⟨"b", .integer 1, 1⟩, ⟨"c", .integer (-2), 2⟩]

def backAndUp : List Event := [⟨"c", .integer (-2), 0⟩, ⟨"a", .integer Int64.maxValue, 1⟩, ⟨"b", .integer 1, 2⟩]

def plainView : Frame := ⟨⟨"c", .integer (-2), 2⟩, none, [], .standard⟩

theorem sum_of_integers_in_two_orders :
    upAndBack.map Event.value = [Int64.maxValue, 1, -2].map .integer ∧
    (aggregate evaluate .sum upAndBack plainView).run ⟨.empty, []⟩ =
      (.ok (.float (Float.ofInt (2 ^ 63 - 2))), ⟨.empty, []⟩) ∧
    backAndUp.map Event.value = [-2, Int64.maxValue, 1].map .integer ∧
    (aggregate evaluate .sum backAndUp plainView).run ⟨.empty, []⟩ =
      (.ok (.integer (Int64.maxValue - 1)), ⟨.empty, []⟩) := by
  have hup : upAndBack.map Event.value = [Int64.maxValue, 1, -2].map .integer := rfl
  have hback : backAndUp.map Event.value = [-2, Int64.maxValue, 1].map .integer := rfl
  refine ⟨hup, ?_, hback, ?_⟩
  · have hunfit : ¬SumsFit [Int64.maxValue, 1, -2] := by
      intro hfit
      obtain ⟨t, ht⟩ := hfit [Int64.maxValue, 1] ⟨[-2], rfl⟩
      have hbeyond : total [Int64.maxValue, 1] = 2 ^ 63 := by decide
      have hlimit := Int64.toInt_lt t
      omega
    obtain ⟨x, hx, hexact⟩ := (sum_of_integers hup evaluate plainView ⟨.empty, []⟩).2.1 hunfit
    rw [hexact (by decide)] at hx
    exact hx
  · have hadded : addIntegers? 0 ([-2, Int64.maxValue, 1].map .integer) = some (Int64.maxValue - 1) := by
      decide
    obtain ⟨htotal, hfit⟩ := addIntegers_eq_some.mp hadded
    refine ((sum_of_integers hback evaluate plainView ⟨.empty, []⟩).1 _).mpr
      ⟨htotal.trans (Int.zero_add _), fun p hp => ?_⟩
    obtain ⟨t, ht⟩ := hfit p hp
    exact ⟨t, ht.trans (Int.zero_add _)⟩

end EventRules.Chain
