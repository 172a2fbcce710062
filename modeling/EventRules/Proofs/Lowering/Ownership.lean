import EventRules.Proofs.Lowering.Tables
import EventRules.Proofs.Matching.Selection

/-!
# Which fragments an arrow owns

In a well placed table calls only lead downwards, so what is called from code is found by following
them. An arrow that owns the fragments directly before it reaches all of them, since each is called
once: by a stage, or by an owned fragment that stands later and is reached itself. Nothing else can be
reached from its stages.

The output of expressions that are lowered one after the other is well placed at every point, also
behind those that failed.
-/

namespace EventRules
set_option autoImplicit false

/-- The places of the fragments that are called, directly or by one another. -/
inductive Reaches (table : List Fragment) (refs : List Reference) : Nat → Prop where
  | direct {r : Reference} (h : r ∈ refs) : Reaches table refs r.index
  | within {i : Nat} {f : Fragment} {r : Reference} (h : Reaches table refs i)
      (hf : table[i]? = some f) (hr : r ∈ f.references) : Reaches table refs r.index

namespace WellPlaced

variable {table : List Fragment} {i : Nat} {f : Fragment} {r : Reference}

theorem resolved (h : WellPlaced table) (hf : table[i]? = some f) (hr : r ∈ f.references) :
    r.Resolved table := by
  have hresolved := ((h i f hf).resolved r hr).append (table.drop i)
  rw [List.take_append_drop] at hresolved
  exact hresolved

theorem lt (h : WellPlaced table) (hf : table[i]? = some f) (hr : r ∈ f.references) : r.index < i := by
  have hlt := ((h i f hf).resolved r hr).lt
  rw [List.length_take] at hlt
  omega

theorem reaches_lt (h : WellPlaced table) (hf : table[i]? = some f) {j : Nat}
    (hj : Reaches table f.references j) : j < i := by
  induction hj with
  | direct hr => exact h.lt hf hr
  | within _ hg hr ih =>
    have hlt := h.lt hg hr
    omega

end WellPlaced

namespace Arrow.Plan

/-- The arrow owns what its stages reach, each fragment once, and no other arrow. -/
def OwnsReached (table : List Fragment) (plan : Arrow.Plan) : Prop :=
  plan.owned.Nodup ∧
  (∀ name, name ∈ plan.owned ↔
    ∃ j g, Reaches table plan.references j ∧ table[j]? = some g ∧ g.name = name) ∧
  ∀ j g, Reaches table plan.references j → table[j]? = some g → g.body.isArrow = false

variable {table others own after : List Fragment} {plan : Arrow.Plan}

theorem own_place (others after : List Fragment) {m : Nat} (hm : m < own.length) :
    (others ++ own ++ after)[others.length + m]? = some own[m] := by
  rw [List.append_assoc, List.getElem?_append_right (Nat.le_add_right _ m), Nat.add_sub_cancel_left,
    List.getElem?_append_left hm, List.getElem?_eq_getElem hm]

theorem mem_own_of_place {j : Nat} {f : Fragment} (hle : others.length ≤ j)
    (hlt : j < others.length + own.length) (hf : (others ++ own ++ after)[j]? = some f) : f ∈ own := by
  obtain ⟨m, rfl⟩ := Nat.exists_eq_add_of_le hle
  have hm : m < own.length := by omega
  rw [own_place others after hm] at hf
  obtain rfl := Option.some.inj hf
  exact List.getElem_mem hm

/-- No call leads out of the owned fragments. -/
theorem owned_of_reached
    (hperm : (plan.references ++ own.flatMap Fragment.references).Perm (oneEach others.length own))
    {j : Nat} (hj : Reaches (others ++ own ++ after) plan.references j) :
    others.length ≤ j ∧ j < others.length + own.length := by
  have hcalled : ∀ {r : Reference}, r ∈ plan.references ++ own.flatMap Fragment.references →
      others.length ≤ r.index ∧ r.index < others.length + own.length := by
    intro r hr
    obtain ⟨hle, hname⟩ := mem_oneEach_iff.mp (hperm.subset hr)
    obtain ⟨f, hf, -⟩ := Option.map_eq_some_iff.mp hname
    have hlt := (List.getElem?_eq_some_iff.mp hf).1
    omega
  induction hj with
  | direct hr => exact hcalled (List.mem_append_left _ hr)
  | @within i f r _ hf hr ih =>
    apply hcalled
    apply List.mem_append_right
    exact List.mem_flatMap.mpr ⟨f, mem_own_of_place ih.1 ih.2 hf, hr⟩

/-- By induction from the last owned fragment down: what calls a fragment stands behind it. -/
theorem reached_of_owned (h : WellPlaced (others ++ own ++ after))
    (hperm : (plan.references ++ own.flatMap Fragment.references).Perm (oneEach others.length own))
    (d : Nat) : ∀ m, m < own.length → own.length ≤ m + d →
      Reaches (others ++ own ++ after) plan.references (others.length + m) := by
  induction d with
  | zero =>
    intro m hm hd
    omega
  | succ d ih =>
    intro m hm hd
    have hcall : ⟨own[m].name, others.length + m⟩ ∈ oneEach others.length own := by
      refine mem_oneEach_iff.mpr ⟨Nat.le_add_right _ m, ?_⟩
      simp only [Nat.add_sub_cancel_left, List.getElem?_eq_getElem hm, Option.map_some]
    rcases List.mem_append.mp (hperm.symm.subset hcall) with hstage | howned
    · exact Reaches.direct hstage
    · obtain ⟨f, hf, hr⟩ := List.mem_flatMap.mp howned
      obtain ⟨n, hn, rfl⟩ := List.mem_iff_getElem.mp hf
      have hplace := own_place others after hn
      have hlt : others.length + m < others.length + n := h.lt hplace hr
      exact Reaches.within (ih n hn (by omega)) hplace hr

end Arrow.Plan

theorem WellPlaced.ownsReached {table : List Fragment} (h : WellPlaced table)
    (hnames : (table.map Fragment.name).Nodup) {i : Nat} {f : Fragment} {plan : Arrow.Plan}
    (hf : table[i]? = some f) (hplan : f.body = .arrow plan) : plan.OwnsReached table := by
  obtain ⟨others, own, hbefore, howned, hfree, hperm⟩ := (h i f hf).owns plan hplan
  obtain ⟨after, rfl⟩ : ∃ after, table = others ++ own ++ after := by
    refine ⟨table.drop i, ?_⟩
    rw [← hbefore, List.take_append_drop]
  have hplace : ∀ {j : Nat} {g : Fragment}, Reaches (others ++ own ++ after) plan.references j →
      (others ++ own ++ after)[j]? = some g → g ∈ own := by
    intro j g hj hg
    obtain ⟨hle, hlt⟩ := Arrow.Plan.owned_of_reached hperm hj
    exact Arrow.Plan.mem_own_of_place hle hlt hg
  refine ⟨?_, ?_, ?_⟩
  · rw [List.map_append, List.map_append, ← howned] at hnames
    exact (List.nodup_append.mp (List.nodup_append.mp hnames).1).2.1
  · intro name
    rw [howned, List.mem_map]
    constructor
    · rintro ⟨g, hg, rfl⟩
      obtain ⟨m, hm, rfl⟩ := List.mem_iff_getElem.mp hg
      have hreached := Arrow.Plan.reached_of_owned h hperm own.length m hm (by omega)
      exact ⟨others.length + m, own[m], hreached, Arrow.Plan.own_place others after hm, rfl⟩
    · rintro ⟨j, g, hj, hg, rfl⟩
      exact ⟨g, hplace hj hg, rfl⟩
  · intro j g hj hg
    exact hfree g (hplace hj hg)

/-- The fragments that an arrow owns. -/
def Fragment.owned? (f : Fragment) : Option (List String) :=
  match f.body with
  | .arrow plan => some plan.owned
  | _ => none

theorem arrow_of_owned {f : Fragment} {names : List String} (h : f.owned? = some names) :
    ∃ plan, f.body = .arrow plan ∧ plan.owned = names := by
  rw [Fragment.owned?] at h
  split at h
  · next plan hbody => exact ⟨plan, hbody, Option.some.inj h⟩
  · cases h

namespace Lowering

open Routine

/-- Expressions lowered one after the other. What one of them leaves, also when it fails, the next one
begins from. -/
def lowerAll : List (Scope × Expr) → Output → List (Except LoweringError Code) × Output
  | [], o => ([], o)
  | (scope, e) :: jobs, o =>
    let (r, u) := (lower scope e).run o
    let (rs, v) := lowerAll jobs u
    (r :: rs, v)

theorem lower_grows (scope : Scope) (e : Expr) (o : Output) : Grows o ((lower scope e).run o).2 := by
  have hstep : InStep ⟨scope.registry, True, o.fragments.length⟩ o .empty := by
    refine ⟨rfl, ?_⟩
    intro j g hg
    simp [Output.empty] at hg
  exact (lower_alike ⟨scope.registry, True, o.fragments.length⟩ e scope rfl (fun _ => trivial) o .empty
    hstep).left

/-- What holds behind every expression of a sequence. -/
theorem lowerAll_accounted (jobs : List (Scope × Expr)) {o : Output} (h : WellPlaced o.fragments) :
    Grows o (lowerAll jobs o).2 ∧ (lowerAll jobs o).2.pendingChain = o.pendingChain ∧
      WellPlaced (lowerAll jobs o).2.fragments ∧
      ∀ c, .ok c ∈ (lowerAll jobs o).1 → ∀ r ∈ c.references, r.Resolved (lowerAll jobs o).2.fragments := by
  induction jobs generalizing o with
  | nil =>
    refine ⟨.refl o, rfl, h, ?_⟩
    intro c hc
    cases hc
  | cons job jobs ih =>
    obtain ⟨scope, e⟩ := job
    have hgrows := lower_grows scope e o
    obtain ⟨hpending, hplaced, added, hadded, -, hok⟩ := lower_accounted e scope o h nofun
    rw [lowerAll]
    cases hrun : (lower scope e).run o with
    | mk first u =>
      rw [hrun] at hgrows hpending hplaced hadded hok
      simp only at hgrows hpending hplaced hadded hok ⊢
      obtain ⟨hgrows', hpending', hplaced', hresolved⟩ := ih hplaced
      refine ⟨hgrows.trans hgrows', hpending'.trans hpending, hplaced', ?_⟩
      intro c hc r hr
      rcases List.mem_cons.mp hc with hfirst | hrest
      · have hat : r.Resolved u.fragments := by
          rw [hadded]
          exact resolved_of_perm (List.forall_mem_nil _) (hok c hfirst.symm).2 r hr
        obtain ⟨more, hmore⟩ := hgrows'.keeps_fragments
        rw [← hmore]
        exact hat.append more
      · exact hresolved c hrest r hr

/-- The table of fragments is well formed behind any sequence of expressions, and one expression that is
lowered alone calls each of its fragments exactly once. -/
theorem fragments_well_formed (pending : Option String) (jobs : List (Scope × Expr)) :
    let start : Output := { Output.empty with pendingChain := pending }
    let o := (lowerAll jobs start).2
    (o.fragments.map Fragment.name).Nodup ∧
    (∀ c, .ok c ∈ (lowerAll jobs start).1 → ∀ r ∈ c.references, r.Resolved o.fragments) ∧
    (∀ i f, o.fragments[i]? = some f →
      (∀ r ∈ f.references, r.Resolved o.fragments ∧ r.index < i) ∧
      (∀ j, Reaches o.fragments f.references j → j < i) ∧
      f.body.Positive ∧
      ∀ plan, f.body = .arrow plan → plan.OwnsReached o.fragments) ∧
    (∀ scope e, ((lower scope e).run o).2.pendingChain = o.pendingChain) ∧
    ∀ scope e c u, (lower scope e).run start = (.ok c, u) →
      (c.references ++ u.fragments.flatMap Fragment.references).Perm (oneEach 0 u.fragments) := by
  intro start o
  obtain ⟨hgrows, hpending, hplaced, hresolved⟩ := lowerAll_accounted jobs (o := start) wellPlaced_nil
  have hnames : (o.fragments.map Fragment.name).Nodup := Grows.names hgrows
  refine ⟨hnames, hresolved, ?_, ?_, ?_⟩
  · intro i f hf
    refine ⟨?_, ?_, (hplaced i f hf).positive, ?_⟩
    · intro r hr
      exact ⟨hplaced.resolved hf hr, hplaced.lt hf hr⟩
    · intro j hj
      exact hplaced.reaches_lt hf hj
    · intro plan hplan
      exact hplaced.ownsReached hnames hf hplan
  · intro scope e
    exact (lower_accounted e scope o hplaced nofun).pending
  · intro scope e c u hrun
    obtain ⟨-, -, added, hadded, -, hok⟩ := lower_accounted e scope start wellPlaced_nil nofun
    rw [hrun] at hadded hok
    obtain rfl : u.fragments = added := hadded
    exact (hok c rfl).2

/-- An expression that fails leaves its counter behind. The arrow that is lowered next owns the two
fragments of its stages and not that counter. -/
theorem fragments_well_formed_after_error :
    ∃ k failing e, selected .empty []
        "(count(==1,2)||x)&&{count(==1,2)}->{filter(==2).count().meet(>=1)}" =
          .ok (k, .binary .and failing e) ∧
      let scope : Scope := ⟨.empty, .empty, none⟩
      let o := (lowerAll [(scope, failing), (scope, e)] .empty).2
      o.fragments.map Fragment.name = ["count_1", "count_3", "chain_4", "arrow_2"] ∧
      (o.fragments.map Fragment.name).Nodup ∧
      (∃ f plan, o.fragments[3]? = some f ∧ f.body = .arrow plan ∧ plan.owned = ["count_3", "chain_4"] ∧
        (∀ j, Reaches o.fragments f.references j → j < 3) ∧ plan.OwnsReached o.fragments) ∧
      ∃ c u, (lower scope e).run .empty = (.ok c, u) ∧ u.fragments.length = 3 ∧
        (c.references ++ u.fragments.flatMap Fragment.references).Perm (oneEach 0 u.fragments) := by
  obtain ⟨k, failing, e, hs, hp⟩ := selected_sides .empty []
    "(count(==1,2)||x)&&{count(==1,2)}->{filter(==2).count().meet(>=1)}" .and (fun failing e =>
      let scope : Scope := ⟨.empty, .empty, none⟩
      let fragments := (lowerAll [(scope, failing), (scope, e)] .empty).2.fragments
      fragments.map Fragment.name == ["count_1", "count_3", "chain_4", "arrow_2"] &&
        fragments[3]?.bind Fragment.owned? == some ["count_3", "chain_4"] &&
        ((lower scope e).run .empty).1.isOk && ((lower scope e).run .empty).2.fragments.length == 3)
    (by decide +kernel)
  refine ⟨k, failing, e, hs, ?_⟩
  intro scope o
  simp only [Bool.and_eq_true, beq_iff_eq] at hp
  obtain ⟨⟨⟨hlist, harrow⟩, hok⟩, hlength⟩ := hp
  obtain ⟨hnames, -, hplaces, -, hcalls⟩ := fragments_well_formed none [(scope, failing), (scope, e)]
  refine ⟨hlist, hnames, ?_, ?_⟩
  · obtain ⟨f, hf, hf'⟩ := Option.bind_eq_some_iff.mp harrow
    obtain ⟨plan, harrowed, howned⟩ := arrow_of_owned hf'
    obtain ⟨-, hreaches, -, hplan⟩ := hplaces 3 f hf
    exact ⟨f, plan, hf, harrowed, howned, hreaches, hplan plan harrowed⟩
  · cases hrun : (lower scope e).run .empty with
    | mk r u =>
      rw [hrun] at hok hlength
      cases r with
      | error err => cases hok
      | ok c => exact ⟨c, u, rfl, hlength, hcalls scope e c u hrun⟩

end Lowering

end EventRules
