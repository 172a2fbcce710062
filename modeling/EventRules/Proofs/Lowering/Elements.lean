import EventRules.Proofs.Lowering.Alike
import EventRules.Lowering.Monitor
import EventRules.Lowering.Pipeline

/-!
# Monitors and chains lowered in two places

If the arguments of a call are lowered alike, then so are its condition, its monitor, and each element
of a chain. Elements and drafts are twins when the codes in them are; what is recorded of an element,
and whether it may stand where it does, depends on the rest only.
-/

namespace EventRules.Lowering
set_option autoImplicit false

open Routine

variable {d : Doubling} {o o' : Output} {scope : Scope} {c : OperandCall}

/-- An argument whose code comes out alike. -/
def Operand.Alike (d : Doubling) (operand : Operand) : Prop :=
  Lowering.Alike d CodeTwin operand.lower operand.lower

/-- The arguments of a call come out alike. -/
def ArgumentsAlike (d : Doubling) (c : OperandCall) : Prop := ∀ a ∈ c.args, a.Alike d

theorem condition_alike {operand : Operand} (h : operand.Alike d) (c : OperandCall) :
    Alike d CodeTwin (condition c operand) (condition c operand) := by
  intro o o'
  rw [condition]
  cases isCondition operand.expr with
  | false => exact AlikeAt.fail _
  | true => exact h o o'

/-! ### Monitors -/

theorem condition_then_alike {γ : Type} {operand : Operand} (h : operand.Alike d)
    {r : Except LoweringError γ} {plan : Code → γ → Monitor.Plan}
    (hplan : ∀ {site : Site} {a b : Code} (n : γ), CodeTwin site a b →
      Monitor.Plan.Twin site site.right.length (plan a n) (plan b n)) :
    AlikeAt d (fun site => Monitor.Plan.Twin site site.right.length)
      (condition c operand >>= fun code => ofExcept r >>= fun n => pure (plan code n))
      (condition c operand >>= fun code => ofExcept r >>= fun n => pure (plan code n)) o o' := by
  refine AlikeAt.bind (condition_alike h c o o') fun a b u u' _ hab => ?_
  exact AlikeAt.ofExcept_bind fun n _ => AlikeAt.pure (hplan n hab)

theorem monitorPlan_alike (h : ArgumentsAlike d c) (kind : MonitorKind) :
    Alike d (fun site => Monitor.Plan.Twin site site.right.length) (monitorPlan scope kind c)
      (monitorPlan scope kind c) := by
  intro o o'
  fun_cases monitorPlan scope kind c with
  | case1 test times hargs =>
    have htest := h test (by simp [hargs])
    exact condition_then_alike htest fun n hab => .count n c.strict hab
  | case2 test time hargs =>
    have htest := h test (by simp [hargs])
    exact condition_then_alike htest fun ms hab => .keep ms hab
  | case3 time hargs => exact AlikeAt.ofExcept_bind fun ms _ => AlikeAt.pure (.delay ms)
  | case4 test hargs =>
    have htest := h test (by simp [hargs])
    refine AlikeAt.bind (condition_alike htest c o o') fun a b u u' _ hab => ?_
    exact AlikeAt.pure (.slope _ hab)
  | case5 test unit hargs =>
    have htest := h test (by simp [hargs])
    exact condition_then_alike htest fun unit hab => .slope unit hab
  | case6 kind args => exact AlikeAt.fail _

theorem monitor_eq_named (scope : Scope) (kind : MonitorKind) (c : OperandCall) : monitor scope kind c =
    named c.name.text fun _ => FragmentBody.monitor <$> monitorPlan scope kind c := by
  rw [monitor, named]
  simp only [map_bind]

theorem monitor_alike (h : ArgumentsAlike d c) (kind : MonitorKind) :
    Alike d CodeTwin (monitor scope kind c) (monitor scope kind c) := by
  rw [monitor_eq_named]
  refine named_alike _ fun _ _ o o' => ?_
  exact (monitorPlan_alike h kind o o').map fun _ _ _ hab => .monitor hab

/-! ### Elements of chains -/

inductive Element.Twin (site : Site) : Element → Element → Prop where
  | unfiltered : Twin site (.filter none) (.filter none)
  | filter {t t' : Test} (h : Test.Twin site site.right.length .filter t t') :
      Twin site (.filter (some t)) (.filter (some t'))
  | collect : Twin site .collect .collect
  | sample (sampler : Chain.Sampler) : Twin site (.sample sampler) (.sample sampler)
  | take (start : Int64) (stop : Option Int64) : Twin site (.take start stop) (.take start stop)
  | aggregate {a a' : Chain.Aggregation} (h : Chain.Aggregation.Twin site site.right.length a a') :
      Twin site (.aggregate a) (.aggregate a')
  | verdict {t t' : Test} (h : Test.Twin site site.right.length .meet t t') :
      Twin site (.verdict t) (.verdict t')
  | clear : Twin site .clear .clear

theorem plain_alike {e : Element} (h : ∀ site, site.registry = d.registry → Element.Twin site e e) :
    AlikeAt d Element.Twin (plain c e) (plain c e) o o' := by
  rw [plain]
  cases c.args.isEmpty with
  | true => exact AlikeAt.pure (h _ rfl)
  | false => exact AlikeAt.fail _

theorem kind_of_isFilter {registry : Registry} {name : String} (h : registry.isFilter name = true) :
    registry.kind? name = some .filter := by
  simpa [Registry.isFilter] using h

theorem kind_of_filterExtension {e : Expr} {name : String} (h : filterExtension? scope e = some name) :
    scope.registry.kind? name = some .filter := by
  fun_cases filterExtension? scope e with
  | case1 token isStrict hfilter =>
    simp only [filterExtension?, hfilter, if_true, Option.some.injEq] at h
    exact h ▸ kind_of_isFilter hfilter
  | case2 token isStrict hfilter =>
    simp only [filterExtension?, hfilter, if_false, reduceCtorEq] at h
  | case3 e hne =>
    simp [filterExtension?] at h

theorem filterElement_alike (hr : scope.registry = d.registry) (h : ArgumentsAlike d c) :
    AlikeAt d Element.Twin (filterElement scope c) (filterElement scope c) o o' := by
  fun_cases filterElement scope c with
  | case1 hargs => exact AlikeAt.pure .unfiltered
  | case2 test hargs name hname =>
    refine AlikeAt.pure (.filter (.extension ?_))
    change d.registry.kind? name = some .filter
    exact hr ▸ kind_of_filterExtension hname
  | case3 test hargs hname =>
    have htest := h test (by simp [hargs])
    refine AlikeAt.bind (condition_alike htest c o o') fun a b u u' _ hab => ?_
    exact AlikeAt.pure (.filter (.condition hab))
  | case4 => exact AlikeAt.fail _

theorem sampleElement_alike (wrap : Chain.Extent → Chain.Sampler) :
    AlikeAt d Element.Twin (sampleElement scope c wrap) (sampleElement scope c wrap) o o' := by
  fun_cases sampleElement scope c wrap with
  | case1 extent hargs => exact AlikeAt.ofExcept_bind fun n _ => AlikeAt.pure (.sample _)
  | case2 => exact AlikeAt.fail _

theorem takeElement_alike :
    AlikeAt d Element.Twin (takeElement scope c) (takeElement scope c) o o' := by
  fun_cases takeElement scope c with
  | case1 start hargs => exact AlikeAt.ofExcept_bind fun n _ => AlikeAt.pure (.take _ _)
  | case2 start stop hargs =>
    refine AlikeAt.ofExcept_bind fun n _ => AlikeAt.ofExcept_bind fun n' _ => ?_
    exact AlikeAt.pure (.take _ _)
  | case3 => exact AlikeAt.fail _

theorem conditionElement_alike (h : ArgumentsAlike d c) {wrap : Code → Element}
    (hwrap : ∀ {site : Site} {a b : Code}, CodeTwin site a b → Element.Twin site (wrap a) (wrap b)) :
    AlikeAt d Element.Twin (conditionElement c wrap) (conditionElement c wrap) o o' := by
  fun_cases conditionElement c wrap with
  | case1 test hargs =>
    have htest := h test (by simp [hargs])
    exact AlikeAt.bind (condition_alike htest c o o') fun a b u u' _ hab => AlikeAt.pure (hwrap hab)
  | case2 => exact AlikeAt.fail _

theorem extensionElement_alike (hr : scope.registry = d.registry) :
    AlikeAt d Element.Twin (extensionElement scope c) (extensionElement scope c) o o' := by
  rw [extensionElement]
  rw [hr]
  cases hk : d.registry.kind? c.name.text with
  | none => exact AlikeAt.fail _
  | some kind =>
    cases kind with
    | filter => exact plain_alike fun site hs => .filter (.extension (hs ▸ hk))
    | calculator => exact plain_alike fun site hs => .aggregate (.extension (hs ▸ hk))
    | meet => exact plain_alike fun site hs => .verdict (.extension (hs ▸ hk))

theorem element_alike (hr : scope.registry = d.registry) (h : ArgumentsAlike d c) :
    Alike d Element.Twin (element scope c) (element scope c) := by
  intro o o'
  rw [element]
  cases c.strict with
  | true => exact AlikeAt.fail _
  | false =>
    simp only [Bool.false_eq_true, if_false]
    split
    · exact filterElement_alike hr h
    · exact plain_alike fun _ _ => .collect
    · exact sampleElement_alike _
    · exact sampleElement_alike _
    · exact takeElement_alike
    · exact plain_alike fun _ _ => .aggregate .sum
    · exact plain_alike fun _ _ => .aggregate .avg
    · exact plain_alike fun _ _ => .aggregate .min
    · exact plain_alike fun _ _ => .aggregate .max
    · exact plain_alike fun _ _ => .aggregate .stddev
    · exact plain_alike fun _ _ => .aggregate .count
    · exact conditionElement_alike h fun hab => .aggregate (.hitRate hab)
    · exact conditionElement_alike h fun hab => .verdict (.condition hab)
    · exact plain_alike fun _ _ => .clear
    · exact extensionElement_alike hr

/-! ### Drafts -/

structure Draft.Twin (site : Site) (a b : Draft) : Prop where
  phase : a.phase = b.phase
  last : a.last = b.last
  filters : List.Forall₂ (Test.Twin site site.right.length .filter) a.filters b.filters
  sampler : a.sampler = b.sampler
  take : a.take = b.take
  aggregation : Option.Rel (Chain.Aggregation.Twin site site.right.length) a.aggregation b.aggregation
  verdict : Option.Rel (Test.Twin site site.right.length .meet) a.verdict b.verdict
  clears : a.clears = b.clears

theorem Draft.Twin.empty (site : Site) : Draft.Twin site .empty .empty :=
  ⟨rfl, rfl, .nil, rfl, rfl, .none, .none, rfl⟩

theorem option_rel_imp {α β : Type} {R S : α → β → Prop} (h : ∀ a b, R a b → S a b) {x : Option α}
    {y : Option β} (hxy : Option.Rel R x y) : Option.Rel S x y := by
  cases hxy with
  | none => exact .none
  | some hab => exact .some (h _ _ hab)

theorem Draft.Twin.mono {site later : Site} (h : site.Before later) {a b : Draft}
    (hab : Draft.Twin site a b) : Draft.Twin later a b := by
  have hle := h.right.length_le
  exact { hab with
    filters := hab.filters.imp fun _ _ ht => ht.mono h hle
    aggregation := option_rel_imp (fun _ _ ha => ha.mono h hle) hab.aggregation
    verdict := option_rel_imp (fun _ _ ht => ht.mono h hle) hab.verdict }

theorem Element.Twin.phase_eq {site : Site} {e e' : Element} (h : Element.Twin site e e') :
    e.phase = e'.phase := by
  cases h <;> rfl

theorem record_twin {site : Site} {a b : Draft} {e e' : Element} (hab : Draft.Twin site a b)
    (he : Element.Twin site e e') : Draft.Twin site (a.record e) (b.record e') := by
  cases he with
  | unfiltered => exact { hab with filters := List.rel_append hab.filters .nil }
  | filter ht => exact { hab with filters := List.rel_append hab.filters (.cons ht .nil) }
  | collect => exact hab
  | sample sampler => exact { hab with sampler := rfl }
  | take start stop => exact { hab with take := rfl }
  | aggregate ha => exact { hab with aggregation := .some ha }
  | verdict ht => exact { hab with verdict := .some ht }
  | clear => exact { hab with clears := rfl }

theorem lacksFilter_eq {site : Site} {a b : Draft} {e e' : Element} (hab : Draft.Twin site a b)
    (he : Element.Twin site e e') : a.lacksFilter e = b.lacksFilter e' := by
  rw [Draft.lacksFilter, Draft.lacksFilter, hab.phase, he.phase_eq]

theorem push_twin {site : Site} {a b : Draft} {e e' : Element} (hab : Draft.Twin site a b)
    (he : Element.Twin site e e') (name : Token) :
    SameOutcome Eq (Draft.Twin site) (a.push name e) (b.push name e') := by
  have hbefore : a.samplerBefore e = b.samplerBefore e' := by
    rw [Draft.samplerBefore, Draft.samplerBefore, he.phase_eq, hab.sampler]
  rw [Draft.push, Draft.push, lacksFilter_eq hab he, hbefore, hab.phase, he.phase_eq, hab.last]
  have hrecord := record_twin hab he
  cases b.samplerBefore e' with
  | some existing => exact .error rfl
  | none =>
    dsimp only
    generalize (if b.lacksFilter e' = true then Phase.filter else b.phase) = phase
    cases phase.accepts e'.phase with
    | true => exact .ok { hrecord with phase := rfl, last := rfl }
    | false => exact .error rfl

theorem pipeline_alike (hr : scope.registry = d.registry) {calls : List OperandCall}
    (h : ∀ c ∈ calls, ArgumentsAlike d c) {a b : Draft} (hab : Draft.Twin (d.site o o') a b) :
    AlikeAt d Draft.Twin (pipeline scope a calls) (pipeline scope b calls) o o' := by
  induction calls generalizing a b o o' with
  | nil => exact AlikeAt.pure hab
  | cons c cs ih =>
    have hcs : ∀ c ∈ cs, ArgumentsAlike d c := fun c hc => h c (List.mem_cons_of_mem _ hc)
    refine AlikeAt.bind (element_alike hr (h c List.mem_cons_self) o o') fun e e' u u' hu he => ?_
    have hab := hab.mono hu
    have hpush : ∀ {v v' : Output}, (d.site u u').Before (d.site v v') →
        AlikeAt d Draft.Twin (ofExcept (a.push c.name e) >>= fun d => pipeline scope d cs)
          (ofExcept (b.push c.name e') >>= fun d => pipeline scope d cs) v v' := by
      intro v v' hv
      refine AlikeAt.bind (AlikeAt.ofExcept ((push_twin hab he c.name).imp fun _ _ h => h.mono hv))
        fun x y w w' _ hxy => ih hcs hxy
    rw [lacksFilter_eq hab he]
    cases b.lacksFilter e' with
    | true => exact AlikeAt.bind (AlikeAt.warn _) fun _ _ v v' hv _ => hpush hv
    | false => exact hpush (before_of_grows d (.refl u) (.refl u'))

theorem plan_twin {site : Site} {a b : Draft} (hab : Draft.Twin site a b) :
    Option.Rel (Chain.Plan.Twin site site.right.length) a.plan? b.plan? := by
  rw [Draft.plan?, Draft.plan?]
  obtain ⟨_, _, hf, hs, ht, ha, hv, hc⟩ := hab
  generalize a.aggregation = x at ha ⊢
  generalize b.aggregation = x' at ha ⊢
  generalize a.verdict = y at hv ⊢
  generalize b.verdict = y' at hv ⊢
  cases ha with
  | none => exact .none
  | some ha =>
    cases hv with
    | none => exact .none
    | some hv => exact .some ⟨hf, hs, ht, ha, hv, hc⟩

theorem chainPlan_alike (hr : scope.registry = d.registry) {calls : List OperandCall}
    (h : ∀ c ∈ calls, ArgumentsAlike d c) :
    Alike d (fun site => Chain.Plan.Twin site site.right.length) (chainPlan scope calls)
      (chainPlan scope calls) := by
  intro o o'
  refine AlikeAt.bind (pipeline_alike hr h (.empty _)) fun a b u u' _ hab => ?_
  have hplan := plan_twin hab
  generalize a.plan? = x at hplan ⊢
  generalize b.plan? = y at hplan ⊢
  cases hplan with
  | none => exact AlikeAt.fail _
  | some hp => exact AlikeAt.pure hp

theorem chain_eq_named (scope : Scope) (calls : List OperandCall) : chain scope calls =
    named "chain" fun name => FragmentBody.chain <$> withinChain name (chainPlan scope calls) := by
  rw [chain, named]
  simp only [map_bind]

/-- A chain draws its name first and is emitted last, behind all that its arguments emit. -/
theorem chain_lowered {calls : List OperandCall} {o u : Output} {code : Code}
    (h : (chain scope calls).run o = (.ok code, u)) :
    ∃ name plan before, (∃ o' t, (chainPlan scope calls).run o' = (.ok plan, t)) ∧
      code = .call name before.length ∧ u.fragments = before ++ [⟨name, .chain plan⟩] := by
  rw [chain_eq_named, named_run] at h
  split at h
  · next body t hbody =>
    cases h
    obtain ⟨plan, t', hplan, hpure⟩ := bind_ok hbody
    cases hpure
    have hrun : ((chainPlan scope calls).run { o with
        issued := o.issued + 1, pendingChain := some s!"chain_{o.issued + 1}" }).1 = .ok plan :=
      congrArg Prod.fst hplan
    exact ⟨_, plan, t.fragments, ⟨_, _, Prod.ext hrun rfl⟩, rfl, rfl⟩
  · cases h

theorem chain_alike (hr : scope.registry = d.registry) {calls : List OperandCall}
    (h : ∀ c ∈ calls, ArgumentsAlike d c) :
    Alike d CodeTwin (chain scope calls) (chain scope calls) := by
  rw [chain_eq_named]
  refine named_alike _ fun x y o o' => ?_
  exact (AlikeAt.withinChain (chainPlan_alike hr h) x y).map fun _ _ _ hab => .chain hab

end EventRules.Lowering
