import Mathlib.Data.List.Pairwise
import EventRules.Proofs.Matching.Resolution
import EventRules.Proofs.Run.Framing

/-!
# How often a fragment sees an event

In a compiled rule each fragment is referred to from one place. Evaluation comes by every place once,
except for the conditions of hit rates, which are asked for every retained event. So a fragment that no
such condition reaches is called once an event at most: oftener only if the one fragment that refers to
it is, and by induction from the last place down none is.
-/

namespace EventRules
set_option autoImplicit false

open Routine Lowering

variable {table : List Fragment} {freed : String → Prop} {refs : List Reference}
  {log : List CallRecord} {s t : Session} {rule : Rule}

/-! ### Calls in a table -/

theorem oneEach_names (k : Nat) (fragments : List Fragment) :
    (oneEach k fragments).map Reference.name = fragments.map Fragment.name := by
  induction fragments generalizing k with
  | nil => rfl
  | cons f fs ih => rw [oneEach_cons, List.map_cons, List.map_cons, ih]

theorem caller_of_callees {x y : String} (h : x ∈ callees table y) :
    ∃ f ∈ table, f.name = y ∧ x ∈ f.references.map Reference.name := by
  rw [callees] at h
  split at h
  · next f hf => exact ⟨f, List.mem_of_find?_eq_some hf, by simpa using List.find?_some hf, h⟩
  · cases h

/-- What stands in one list only is counted there as often as the list is taken. -/
theorem count_flatMap_le {next : String → List String} {x z : String}
    (h : ∀ y, x ∈ next y → y = z) (hz : (next z).count x ≤ 1) (names : List String) :
    (names.flatMap next).count x ≤ names.count z := by
  induction names with
  | nil => exact Nat.le_refl 0
  | cons y ys ih =>
    rw [List.flatMap_cons, List.count_append, List.count_cons]
    by_cases hy : y = z
    · subst hy
      rw [if_pos (beq_self_eq_true y)]
      omega
    · have hnone : (next y).count x = 0 := List.count_eq_zero_of_not_mem fun hx => hy (h y hx)
      omega

/-- The table holds one call of each of its fragments, apart from those that the calls `refs` hold. -/
structure Linear (table : List Fragment) (refs : List Reference) : Prop where
  placed : WellPlaced table
  names : (table.map Fragment.name).Nodup
  calls : (refs ++ table.flatMap Fragment.references).Perm (oneEach 0 table)

namespace Linear

theorem called (h : Linear table refs) :
    (refs.map Reference.name ++ table.flatMap fun f => f.references.map Reference.name).Nodup := by
  have hperm := h.calls.map Reference.name
  rw [oneEach_names, List.map_append, List.map_flatMap] at hperm
  exact hperm.nodup_iff.mpr h.names

/-- A fragment is called no oftener than the one that refers to it. -/
theorem seldom (h : Linear table refs) (hlog : Footprint table freed refs log s t) {x : String}
    (hx : ¬Repeated table x)
    (hcallers : ∀ f ∈ table, x ∈ f.references.map Reference.name → (logged log).count f.name ≤ 1) :
    (logged log).count x ≤ 1 := by
  have hseldom := hlog.seldom x hx
  obtain ⟨hrefs, hbodies, hapart⟩ := List.nodup_append.mp h.called
  obtain ⟨honce, hdisjoint⟩ := List.nodup_flatMap.mp hbodies
  by_cases hcaller : ∃ f ∈ table, x ∈ f.references.map Reference.name
  · obtain ⟨f, hf, hmem⟩ := hcaller
    have hnone : (refs.map Reference.name).count x = 0 := by
      refine List.count_eq_zero_of_not_mem fun hx => ?_
      exact hapart x hx x (List.mem_flatMap.mpr ⟨f, hf, hmem⟩) rfl
    have honly : ∀ y, x ∈ callees table y → y = f.name := by
      intro y hy
      obtain ⟨g, hg, rfl, hmem'⟩ := caller_of_callees hy
      by_contra hne
      have hgf : g ≠ f := fun hgf => hne (congrArg Fragment.name hgf)
      have : Std.Symm (Function.onFun List.Disjoint fun f : Fragment => f.references.map Reference.name) :=
        ⟨fun _ _ hapart _ hx hx' => hapart hx' hx⟩
      exact hdisjoint.forall hg hf hgf hmem' hmem
    have hcount : (callees table f.name).count x ≤ 1 := by
      rw [callees_of_mem h.names hf]
      exact List.nodup_iff_count_le_one.mp (honce f hf) x
    have hle := count_flatMap_le honly hcount (logged log)
    have hcalled := hcallers f hf hmem
    omega
  · have hnone : ((logged log).flatMap (callees table)).count x = 0 := by
      refine List.count_eq_zero_of_not_mem fun hx => ?_
      obtain ⟨y, -, hy⟩ := List.mem_flatMap.mp hx
      obtain ⟨f, hf, -, hmem⟩ := caller_of_callees hy
      exact hcaller ⟨f, hf, hmem⟩
    have hcount := List.nodup_iff_count_le_one.mp hrefs x
    omega

/-- A hit rate reaches what the fragments refer to that it reaches. -/
theorem repeated_of_caller (h : Linear table refs) {f : Fragment} (hf : f ∈ table) {x : String}
    (hx : x ∈ f.references.map Reference.name) (hrepeated : Repeated table f.name) :
    Repeated table x := by
  obtain ⟨i, hi⟩ := List.mem_iff_getElem?.mp hf
  obtain ⟨r, hr, rfl⟩ := List.mem_map.mp hx
  obtain ⟨g, hg, hname⟩ := Option.map_eq_some_iff.mp (h.placed.resolved hi hr)
  obtain ⟨k, hk, plan, condition, hbody, hcondition, i', f', hreached, hf', hsame⟩ := hrepeated
  obtain rfl : i' = i := Site.index_eq_of_name h.names hf' hi hsame
  exact ⟨k, hk, plan, condition, hbody, hcondition, r.index, g, .within hreached hi hr, hg, hname⟩

theorem once_at (h : Linear table refs) (hlog : Footprint table freed refs log s t) {j : Nat}
    {g : Fragment} (hg : table[j]? = some g) (hrepeated : ¬Repeated table g.name) :
    (logged log).count g.name ≤ 1 := by
  -- what refers to the fragment stands behind it
  induction hn : table.length - j using Nat.strongRecOn generalizing j g with
  | ind n ih =>
    refine h.seldom hlog hrepeated ?_
    intro f hf hmem
    have hcaller : ¬Repeated table f.name := fun hf' => hrepeated (h.repeated_of_caller hf hmem hf')
    obtain ⟨i, hi⟩ := List.mem_iff_getElem?.mp hf
    obtain ⟨r, hr, hname⟩ := List.mem_map.mp hmem
    obtain ⟨g', hg', hname'⟩ := Option.map_eq_some_iff.mp (h.placed.resolved hi hr)
    have hj : r.index = j := Site.index_eq_of_name h.names hg' hg (hname'.trans hname)
    have hlt := h.placed.lt hi hr
    have hlength := (List.getElem?_eq_some_iff.mp hi).1
    exact ih (table.length - i) (by omega) hi hcaller rfl

theorem once (h : Linear table refs) (hlog : Footprint table freed refs log s t) {x : String}
    (hx : ¬Repeated table x) : (logged log).count x ≤ 1 := by
  refine h.seldom hlog hx ?_
  intro f hf hmem
  obtain ⟨i, hi⟩ := List.mem_iff_getElem?.mp hf
  exact h.once_at hlog hi fun hf' => hx (h.repeated_of_caller hf hmem hf')

end Linear

/-! ### Compiled rules -/

theorem Rule.linear_ofExpr {registry : Registry} {k : Keyed Value} {source : String} {e : Expr}
    (h : Rule.ofExpr registry k source e = .ok rule) :
    Linear rule.fragments rule.entry.references := by
  obtain ⟨entry, output, hrun, rfl⟩ := Rule.ofExpr_ok h
  have hgrows := lower_grows ⟨k, registry, none⟩ e .empty
  obtain ⟨-, hplaced, added, hadded, -, hok⟩ :=
    lower_accounted e ⟨k, registry, none⟩ .empty wellPlaced_nil nofun
  rw [hrun] at hgrows hplaced hadded hok
  obtain rfl : output.fragments = added := hadded
  exact ⟨hplaced, hgrows.names, (hok entry rfl).2⟩

theorem compiled_linear {registry : Registry} {constants : List (String × Value)} {source : String}
    (h : compile registry constants source = .ok rule) :
    Linear rule.fragments rule.entry.references := by
  obtain ⟨k, e, -, hr⟩ := selected_of_compiled h
  exact Rule.linear_ofExpr hr

theorem Linear.orderly (h : Linear table refs) : Orderly table := h.placed.orderly h.names

/-- The fragments that the answer to an event has called. -/
def Answer.called (a : Answer) : List String := a.trace.filterMap TraceEntry.called?

theorem acted_rule (m : Matcher) (actions : List Action) : (m.acted actions).rule = m.rule := by
  induction actions generalizing m with
  | nil => rfl
  | cons action actions ih =>
    cases action with
    | feed event => exact ih (m.feed event).2
    | reset => exact ih m.reset

theorem feed_once {m : Matcher} (h : Linear m.rule.fragments m.rule.entry.references) (event : Event)
    {name : String} (hname : ¬Repeated m.rule.fragments name) :
    (m.feed event).1.called.count name ≤ 1 := by
  have hlog := evaluate_keeps h.orderly m.rule.entry event.value
    ⟨event, none, m.rule.fragments, m.rule.registry⟩ rfl m.session
  obtain ⟨entries, htrace, hentries⟩ := hlog.trace
  have honce := h.once hlog hname
  have hsession : (m.feed event).1.trace = ((evaluate m.rule.entry event.value
      ⟨event, none, m.rule.fragments, m.rule.registry⟩).run m.session).2.trace.reverse := rfl
  rw [htrace, Matcher.session, List.append_nil] at hsession
  rw [Answer.called, hsession, hentries]
  exact honce

/-- Whatever has been done with a matcher, an event calls no fragment twice that is not reached from the
condition of a hit rate. -/
theorem called_once {registry : Registry} {constants : List (String × Value)} {source : String}
    (h : compile registry constants source = .ok rule) (actions : List Action) (event : Event)
    {name : String} (hname : ¬Repeated rule.fragments name) :
    ((rule.matcher.acted actions).feed event).1.called.count name ≤ 1 := by
  have hrule : (rule.matcher.acted actions).rule = rule := acted_rule rule.matcher actions
  apply feed_once
  · rw [hrule]
    exact compiled_linear h
  · rw [hrule]
    exact hname

/-- The counter in the filter is called once for the second event, that in the hit rate once for each of
the two retained events. -/
theorem called_once_beside_hitRate :
    ∃ rule, compile .empty [] "filter(count(==1,1)).collect().hitRate(count(==1,2)).meet(true||>0)" =
        .ok rule ∧ ¬Repeated rule.fragments "count_2" ∧
      ∃ a, a = ((rule.matcher.acted [.feed ⟨"a", .integer 1, 0⟩]).feed ⟨"b", .integer 1, 1⟩).1 ∧
        a.called.count "count_2" ≤ 1 ∧ a.called = ["chain_1", "count_2", "count_3", "count_3"] := by
  obtain ⟨rule, h, hrun⟩ := exists_of_any (p := fun rule =>
      rule.fragments == [⟨"count_2", .monitor (.count (.compare .equal (.literal (.integer 1))) 1 false)⟩,
        ⟨"count_3", .monitor (.count (.compare .equal (.literal (.integer 1))) 2 false)⟩,
        ⟨"chain_1", .chain ⟨[.condition (.call "count_2" 0)], none, none, .hitRate (.call "count_3" 1),
          .condition (.binary .or (.literal (.boolean true)) (.compare .greater (.literal (.integer 0)))),
          false⟩⟩] &&
      ((rule.matcher.acted [.feed ⟨"a", .integer 1, 0⟩]).feed ⟨"b", .integer 1, 1⟩).1.called ==
        ["chain_1", "count_2", "count_3", "count_3"])
    (r := compile .empty [] "filter(count(==1,1)).collect().hitRate(count(==1,2)).meet(true||>0)")
    (by decide +kernel)
  obtain ⟨hfragments, hcalled⟩ := Bool.and_eq_true_iff.mp hrun
  have hfragments := eq_of_beq hfragments
  have hfree : ¬Repeated rule.fragments "count_2" := by
    rw [hfragments]
    rintro ⟨f, hf, plan, condition, hbody, hcondition, j, g, hj, hg, hname⟩
    have hplan : condition = .call "count_3" 1 := by
      simp only [List.mem_cons, List.not_mem_nil, or_false] at hf
      rcases hf with rfl | rfl | rfl
      · cases hbody
      · cases hbody
      · cases hbody
        cases hcondition
        rfl
    subst hplan
    have hplace : j = 1 := hj.closed (P := fun j => j = 1) (by simp [Code.references]) (by
      rintro i f hf rfl r hr
      cases hf
      cases hr)
    subst hplace
    cases hg
    exact absurd hname (by decide)
  exact ⟨rule, h, hfree, _, rfl, called_once h _ _ hfree, eq_of_beq hcalled⟩

end EventRules
