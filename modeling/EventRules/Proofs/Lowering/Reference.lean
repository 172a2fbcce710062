import Mathlib.Data.List.Count
import EventRules.Fragment

/-!
# References

The calls that stand in code, and in the code inside fragments. A table of fragments is well placed if
every fragment only calls fragments before it, if its amounts are positive, and if an arrow owns the
fragments directly before it that its stages call. There each owned fragment is called once, from
which follows that the arrow owns what its stages reach and nothing else.
-/

namespace EventRules
set_option autoImplicit false

/-- A call of a fragment, as code writes it. -/
structure Reference where
  name : String
  index : Nat
deriving DecidableEq

/-! ### Calls in code and in fragments -/

namespace Code

def references : Code → List Reference
  | literal _ | subject | filter _ => []
  | binary _ left right => left.references ++ right.references
  | not inner => inner.references
  | step _ operand => operand.references
  | compare _ operand => operand.references
  | call fragment index => [⟨fragment, index⟩]

/-- Code that can be calculated calls nothing. -/
theorem references_of_fold {c : Code} {v : Value} (h : c.fold? = some v) : c.references = [] := by
  induction c generalizing v with
  | literal w => rfl
  | binary op left right ihl ihr =>
    simp only [fold?] at h
    cases hl : left.fold? with
    | none => simp [hl] at h
    | some l =>
      cases hr : right.fold? with
      | none => simp [hl, hr] at h
      | some r => rw [references, ihl hl, ihr hr, List.append_nil]
  | not inner ih =>
    obtain ⟨w, hw, -⟩ := Option.map_eq_some_iff.mp h
    exact ih hw
  | step up operand ih =>
    obtain ⟨w, hw, -⟩ := Option.bind_eq_some_iff.mp h
    exact ih hw
  | _ => cases h

end Code

def Test.references : Test → List Reference
  | condition code => code.references
  | extension _ => []

def Chain.Aggregation.references : Chain.Aggregation → List Reference
  | hitRate condition => condition.references
  | _ => []

def Chain.Plan.references (p : Chain.Plan) : List Reference :=
  p.filters.flatMap Test.references ++ p.aggregation.references ++ p.verdict.references

def Arrow.Plan.references (p : Arrow.Plan) : List Reference := p.stages.flatMap Code.references

def Monitor.Plan.references : Monitor.Plan → List Reference
  | count condition _ _ | keep condition _ | slope condition _ => condition.references
  | delay _ => []

def FragmentBody.references : FragmentBody → List Reference
  | chain plan => plan.references
  | arrow plan => plan.references
  | monitor plan => plan.references

def Fragment.references (f : Fragment) : List Reference := f.body.references

/-! ### Amounts -/

def Chain.Extent.Positive : Chain.Extent → Prop
  | count n => 0 < n
  | duration ms => 0 < ms

def Chain.Sampler.extent : Chain.Sampler → Chain.Extent
  | limit extent | window extent => extent

def Monitor.Plan.Positive : Monitor.Plan → Prop
  | count _ times _ => 0 < times
  | keep _ ms | delay ms => 0 < ms
  | slope _ unit => 0 < unit

/-- Every count and every duration of a fragment is greater than zero. -/
def FragmentBody.Positive : FragmentBody → Prop
  | chain plan => ∀ sampler ∈ plan.sampler, sampler.extent.Positive
  | arrow _ => True
  | monitor plan => plan.Positive

def FragmentBody.isArrow : FragmentBody → Bool
  | arrow _ => true
  | _ => false

/-! ### Places in a table -/

/-- The call finds its fragment in the table. -/
def Reference.Resolved (table : List Fragment) (r : Reference) : Prop :=
  (table[r.index]?).map Fragment.name = some r.name

/-- One call of each fragment, of which the first one stands at place `k`. -/
def oneEach (k : Nat) (fragments : List Fragment) : List Reference :=
  (fragments.zipIdx k).map fun entry => ⟨entry.1.name, entry.2⟩

/-- The fragments behind the first `others` ones are the arrow's own. Its stages and they themselves call
each of them once, and call nothing else. -/
def Arrow.Plan.Owns (before : List Fragment) (plan : Arrow.Plan) : Prop :=
  ∃ others own, before = others ++ own ∧ plan.owned = own.map Fragment.name ∧
    (∀ f ∈ own, f.body.isArrow = false) ∧
    (plan.references ++ own.flatMap Fragment.references).Perm (oneEach others.length own)

/-- What may stand behind the fragments `before`. -/
structure Fragment.Placed (before : List Fragment) (f : Fragment) : Prop where
  resolved : ∀ r ∈ f.references, r.Resolved before
  positive : f.body.Positive
  owns : ∀ plan, f.body = .arrow plan → plan.Owns before

def WellPlaced (table : List Fragment) : Prop :=
  ∀ (i : Nat) (f : Fragment), table[i]? = some f → f.Placed (table.take i)

variable {before after table : List Fragment} {f : Fragment} {r : Reference}

theorem Reference.Resolved.append (h : r.Resolved before) (after : List Fragment) :
    r.Resolved (before ++ after) := by
  obtain ⟨f, hf, hname⟩ := Option.map_eq_some_iff.mp h
  have hlt := (List.getElem?_eq_some_iff.mp hf).1
  rw [Resolved, List.getElem?_append_left hlt]
  exact h

theorem Reference.Resolved.lt (h : r.Resolved table) : r.index < table.length := by
  obtain ⟨f, hf, -⟩ := Option.map_eq_some_iff.mp h
  exact (List.getElem?_eq_some_iff.mp hf).1

@[simp] theorem oneEach_nil (k : Nat) : oneEach k [] = [] := rfl

@[simp] theorem oneEach_cons (k : Nat) (f : Fragment) (fs : List Fragment) :
    oneEach k (f :: fs) = ⟨f.name, k⟩ :: oneEach (k + 1) fs := by
  simp [oneEach, List.zipIdx_cons]

theorem oneEach_append (k : Nat) (fs gs : List Fragment) :
    oneEach k (fs ++ gs) = oneEach k fs ++ oneEach (k + fs.length) gs := by
  simp [oneEach, List.zipIdx_append]

theorem mem_oneEach_iff {k : Nat} {fs : List Fragment} :
    r ∈ oneEach k fs ↔ k ≤ r.index ∧ (fs[r.index - k]?).map Fragment.name = some r.name := by
  obtain ⟨name, index⟩ := r
  simp only [oneEach, List.mem_map, Prod.exists, Reference.mk.injEq,
    List.mk_mem_zipIdx_iff_le_and_getElem?_sub, Option.map_eq_some_iff]
  constructor
  · rintro ⟨f, i, ⟨hk, hf⟩, rfl, rfl⟩
    exact ⟨hk, f, hf, rfl⟩
  · rintro ⟨hk, f, hf, rfl⟩
    exact ⟨f, index, ⟨hk, hf⟩, rfl, rfl⟩

theorem resolved_of_mem_oneEach (h : r ∈ oneEach before.length after) :
    r.Resolved (before ++ after) := by
  obtain ⟨hle, hname⟩ := mem_oneEach_iff.mp h
  rw [Reference.Resolved, List.getElem?_append_right hle]
  exact hname

theorem wellPlaced_nil : WellPlaced [] := by
  intro i f hf
  simp at hf

theorem WellPlaced.concat (h : WellPlaced before) (hf : f.Placed before) :
    WellPlaced (before ++ [f]) := by
  intro i g hg
  have hlt := (List.getElem?_eq_some_iff.mp hg).1
  rw [List.length_append, List.length_singleton] at hlt
  by_cases hi : i < before.length
  · rw [List.getElem?_append_left hi] at hg
    rw [List.take_append_of_le_length (Nat.le_of_lt hi)]
    exact h i g hg
  · obtain rfl : i = before.length := by omega
    rw [List.getElem?_concat_length] at hg
    obtain rfl := Option.some.inj hg
    rw [List.take_left]
    exact hf

end EventRules
