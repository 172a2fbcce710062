import Mathlib.Data.List.Forall2
import EventRules.Fragment
import EventRules.Extension

/-!
# Code at two places

One expression lowered twice, in front of different fragments, gives code that differs in the names and
places of the fragments only. A site says where the two copies stand, and twins are the code, tests,
plans and bodies of such copies: a call on one side goes to the fragment at the same place on the other
side. Both copies of a call find the fragment that they name, in front of the place where they stand,
and the extensions that they use are registered.

A site with one list of fragments on both sides says the same of a single copy.
-/

namespace EventRules
set_option autoImplicit false

/-- The fragments around the two copies; those of the left copy stand behind `offset` other ones. -/
structure Site where
  registry : Registry
  /-- whether the code may calculate -/
  calculates : Prop
  left : List Fragment
  right : List Fragment
  offset : Nat

/-- Operators that calculate; the others answer for every two operands. -/
def BinaryOp.calculates (op : BinaryOp) : Bool := op.isArithmetic || op.isBitwise

namespace Site

/-- The names of the fragments at place `j` of both copies. -/
def Place (site : Site) (j : Nat) (x y : String) : Prop :=
  (site.left[site.offset + j]?).map Fragment.name = some x ∧
    (site.right[j]?).map Fragment.name = some y

/-- A site and a later one, at which more fragments follow. -/
structure Before (site later : Site) : Prop where
  registry : site.registry = later.registry
  calculates : site.calculates → later.calculates
  left : site.left <+: later.left
  right : site.right <+: later.right
  offset : site.offset = later.offset

end Site

theorem getElem_of_longer {α : Type} {xs ys : List α} (h : xs <+: ys) {i : Nat} {a : α}
    (ha : xs[i]? = some a) : ys[i]? = some a := by
  obtain ⟨zs, rfl⟩ := h
  obtain ⟨hi, rfl⟩ := List.getElem?_eq_some_iff.mp ha
  rw [List.getElem?_append_left hi]
  exact ha

theorem getElem_of_forall₂ {α β : Type} {R : α → β → Prop} {xs : List α} {ys : List β}
    (h : List.Forall₂ R xs ys) {i : Nat} {a : α} (ha : xs[i]? = some a) :
    ∃ b, ys[i]? = some b ∧ R a b := by
  induction h generalizing i with
  | nil => simp at ha
  | cons hab _ ih =>
    cases i with
    | zero =>
      obtain rfl := Option.some.inj ha
      exact ⟨_, rfl, hab⟩
    | succ i => exact ih ha

theorem getElem_none_of_forall₂ {α β : Type} {R : α → β → Prop} {xs : List α} {ys : List β}
    (h : List.Forall₂ R xs ys) {i : Nat} (hx : xs[i]? = none) : ys[i]? = none := by
  rw [List.getElem?_eq_none_iff, ← h.length_eq]
  exact List.getElem?_eq_none_iff.mp hx

variable {site later : Site} {bound : Nat}

theorem Site.Place.mono (h : site.Before later) {j : Nat} {x y : String} (hp : site.Place j x y) :
    later.Place j x y := by
  obtain ⟨hx, hy⟩ := hp
  obtain ⟨f, hf, rfl⟩ := Option.map_eq_some_iff.mp hx
  obtain ⟨g, hg, rfl⟩ := Option.map_eq_some_iff.mp hy
  refine ⟨?_, ?_⟩
  · rw [← h.offset, getElem_of_longer h.left hf, Option.map_some]
  · rw [getElem_of_longer h.right hg, Option.map_some]

/-! ### Code -/

/-- Copies of code that stand in front of the fragment at place `bound`. -/
inductive Code.Twin (site : Site) (bound : Nat) : Code → Code → Prop where
  | literal (v : Value) : Twin site bound (.literal v) (.literal v)
  | subject : Twin site bound .subject .subject
  | binary {op : BinaryOp} {l l' r r' : Code} (h : op.calculates = true → site.calculates)
      (hl : Twin site bound l l') (hr : Twin site bound r r') :
      Twin site bound (.binary op l r) (.binary op l' r')
  | not {c c' : Code} (h : Twin site bound c c') : Twin site bound (.not c) (.not c')
  | step {c c' : Code} (up : Bool) (h : site.calculates) (hc : Twin site bound c c') :
      Twin site bound (.step up c) (.step up c')
  | compare {c c' : Code} (op : CompareOp) (h : Twin site bound c c') :
      Twin site bound (.compare op c) (.compare op c')
  | call {j : Nat} {x y : String} (hj : j < bound) (h : site.Place j x y) :
      Twin site bound (.call x (site.offset + j)) (.call y j)
  | filter {name : String} (h : site.registry.kind? name = some .filter) :
      Twin site bound (.filter name) (.filter name)

namespace Code.Twin

theorem mono (h : site.Before later) {k : Nat} (hk : bound ≤ k) {c d : Code}
    (hc : Code.Twin site bound c d) : Code.Twin later k c d := by
  induction hc with
  | literal v => exact .literal v
  | subject => exact .subject
  | binary hop _ _ ihl ihr => exact .binary (fun h' => h.calculates (hop h')) ihl ihr
  | not _ ih => exact .not ih
  | step up hstep _ ih => exact .step up (h.calculates hstep) ih
  | compare op _ ih => exact .compare op ih
  | call hj hp =>
    rw [h.offset]
    exact .call (Nat.lt_of_lt_of_le hj hk) (hp.mono h)
  | filter hf => exact .filter (h.registry ▸ hf)

theorem fold_eq {c d : Code} (h : Code.Twin site bound c d) : c.fold? = d.fold? := by
  induction h with
  | binary _ _ _ ihl ihr => simp only [fold?, ihl, ihr]
  | not _ ih => simp only [fold?, ih]
  | step up _ _ ih => simp only [fold?, ih]
  | _ => rfl

end Code.Twin

/-! ### What stands in fragments -/

inductive Test.Twin (site : Site) (bound : Nat) (kind : ExtensionKind) : Test → Test → Prop where
  | condition {c d : Code} (h : Code.Twin site bound c d) :
      Twin site bound kind (.condition c) (.condition d)
  | extension {name : String} (h : site.registry.kind? name = some kind) :
      Twin site bound kind (.extension name) (.extension name)

theorem Test.Twin.mono {kind : ExtensionKind} (h : site.Before later) {k : Nat} (hk : bound ≤ k)
    {a b : Test} (ha : Test.Twin site bound kind a b) : Test.Twin later k kind a b := by
  cases ha with
  | condition hc => exact .condition (hc.mono h hk)
  | extension he => exact .extension (h.registry ▸ he)

inductive Chain.Aggregation.Twin (site : Site) (bound : Nat) :
    Chain.Aggregation → Chain.Aggregation → Prop where
  | sum : Twin site bound .sum .sum
  | avg : Twin site bound .avg .avg
  | min : Twin site bound .min .min
  | max : Twin site bound .max .max
  | stddev : Twin site bound .stddev .stddev
  | count : Twin site bound .count .count
  | hitRate {c d : Code} (h : Code.Twin site bound c d) : Twin site bound (.hitRate c) (.hitRate d)
  | extension {name : String} (h : site.registry.kind? name = some .calculator) :
      Twin site bound (.extension name) (.extension name)

theorem Chain.Aggregation.Twin.mono (h : site.Before later) {k : Nat} (hk : bound ≤ k)
    {a b : Chain.Aggregation} (ha : Chain.Aggregation.Twin site bound a b) :
    Chain.Aggregation.Twin later k a b := by
  cases ha with
  | sum => exact .sum
  | avg => exact .avg
  | min => exact .min
  | max => exact .max
  | stddev => exact .stddev
  | count => exact .count
  | hitRate hc => exact .hitRate (hc.mono h hk)
  | extension he => exact .extension (h.registry ▸ he)

structure Chain.Plan.Twin (site : Site) (bound : Nat) (p q : Chain.Plan) : Prop where
  filters : List.Forall₂ (Test.Twin site bound .filter) p.filters q.filters
  sampler : p.sampler = q.sampler
  take : p.take = q.take
  aggregation : Chain.Aggregation.Twin site bound p.aggregation q.aggregation
  verdict : Test.Twin site bound .meet p.verdict q.verdict
  clears : p.clears = q.clears

theorem Chain.Plan.Twin.mono (h : site.Before later) {k : Nat} (hk : bound ≤ k) {p q : Chain.Plan}
    (hp : Chain.Plan.Twin site bound p q) : Chain.Plan.Twin later k p q :=
  ⟨hp.filters.imp fun _ _ ht => ht.mono h hk, hp.sampler, hp.take, hp.aggregation.mono h hk,
    hp.verdict.mono h hk, hp.clears⟩

structure Arrow.Plan.Twin (site : Site) (bound : Nat) (p q : Arrow.Plan) : Prop where
  stages : List.Forall₂ (Code.Twin site bound) p.stages q.stages
  owned : List.Forall₂ (fun x y => ∃ j, j < bound ∧ site.Place j x y) p.owned q.owned

theorem Arrow.Plan.Twin.mono (h : site.Before later) {k : Nat} (hk : bound ≤ k) {p q : Arrow.Plan}
    (hp : Arrow.Plan.Twin site bound p q) : Arrow.Plan.Twin later k p q := by
  refine ⟨hp.stages.imp fun _ _ hc => hc.mono h hk, hp.owned.imp ?_⟩
  rintro x y ⟨j, hj, hp⟩
  exact ⟨j, Nat.lt_of_lt_of_le hj hk, hp.mono h⟩

inductive Monitor.Plan.Twin (site : Site) (bound : Nat) : Monitor.Plan → Monitor.Plan → Prop where
  | count {c d : Code} (times : Nat) (strict : Bool) (h : Code.Twin site bound c d) :
      Twin site bound (.count c times strict) (.count d times strict)
  | keep {c d : Code} (ms : Int64) (h : Code.Twin site bound c d) :
      Twin site bound (.keep c ms) (.keep d ms)
  | delay (ms : Int64) : Twin site bound (.delay ms) (.delay ms)
  | slope {c d : Code} (unit : Int64) (h : Code.Twin site bound c d) :
      Twin site bound (.slope c unit) (.slope d unit)

theorem Monitor.Plan.Twin.mono (h : site.Before later) {k : Nat} (hk : bound ≤ k) {p q : Monitor.Plan}
    (hp : Monitor.Plan.Twin site bound p q) : Monitor.Plan.Twin later k p q := by
  cases hp with
  | count times isStrict hc => exact .count times isStrict (hc.mono h hk)
  | keep ms hc => exact .keep ms (hc.mono h hk)
  | delay ms => exact .delay ms
  | slope unit hc => exact .slope unit (hc.mono h hk)

inductive FragmentBody.Twin (site : Site) (bound : Nat) : FragmentBody → FragmentBody → Prop where
  | chain {p q : Chain.Plan} (h : Chain.Plan.Twin site bound p q) :
      Twin site bound (.chain p) (.chain q)
  | arrow {p q : Arrow.Plan} (h : Arrow.Plan.Twin site bound p q) :
      Twin site bound (.arrow p) (.arrow q)
  | monitor {p q : Monitor.Plan} (h : Monitor.Plan.Twin site bound p q) :
      Twin site bound (.monitor p) (.monitor q)

theorem FragmentBody.Twin.mono (h : site.Before later) {k : Nat} (hk : bound ≤ k)
    {a b : FragmentBody} (hb : FragmentBody.Twin site bound a b) : FragmentBody.Twin later k a b := by
  cases hb with
  | chain hp => exact .chain (hp.mono h hk)
  | arrow hp => exact .arrow (hp.mono h hk)
  | monitor hp => exact .monitor (hp.mono h hk)

/-! ### Whole copies -/

/-- Every fragment of the right copy has its twin on the left, and no name stands twice on a side. -/
structure Site.Twins (site : Site) : Prop where
  left_names : (site.left.map Fragment.name).Nodup
  right_names : (site.right.map Fragment.name).Nodup
  body : ∀ {j : Nat} {g : Fragment}, site.right[j]? = some g →
    ∃ f, site.left[site.offset + j]? = some f ∧ FragmentBody.Twin site j f.body g.body

theorem Site.before_extended (site : Site) {left : List Fragment} (h : site.left <+: left) :
    site.Before { site with left := left } :=
  ⟨rfl, id, h, List.prefix_refl _, rfl⟩

theorem Site.Twins.extended (hw : site.Twins) {left : List Fragment} (h : site.left <+: left)
    (hn : (left.map Fragment.name).Nodup) : ({ site with left := left } : Site).Twins := by
  refine ⟨hn, hw.right_names, fun {j g} hg => ?_⟩
  obtain ⟨f, hf, hbody⟩ := hw.body hg
  exact ⟨f, getElem_of_longer h hf, hbody.mono (site.before_extended h) (Nat.le_refl j)⟩

end EventRules
