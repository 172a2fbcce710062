import EventRules.Proofs.Lowering.Expressions
import EventRules.Proofs.Rule.Substitution
import EventRules.Proofs.Run.Recoding

/-!
# Two lowerings that correspond

Two lowerings correspond if, when both succeed, they come to related results and, from related outputs, to
related outputs. What fails on one side only does not matter: a name and what it stands for need not be
allowed at the same places. If the arguments of two calls correspond, then so do their monitors, their
elements and their chains; so do arrows, if their stages do. The extent of a sampler is the one argument
that has to be read alike, since it may be a number of events or a time, and a verdict is the one condition
that has to be the same, since the value under test is another one there.
-/

namespace EventRules
set_option autoImplicit false

open Routine

namespace Lowering

variable {α β α' β' : Type} {S : Output → Output → Prop} {R : Code → Code → Prop}

/-- When both succeed, their results are related, and so are their outputs if they were before. -/
def Corresponds (S : Output → Output → Prop) (Q : α → β → Prop) (m : Lower α) (n : Lower β) : Prop :=
  ∀ o o' a b u v, S o o' → m.run o = (.ok a, u) → n.run o' = (.ok b, v) → Q a b ∧ S u v

/-- What lowering does to both of two related outputs keeps them related. The conditions of fragments are
related by `R`, but a verdict is the same. -/
structure Lasting (S : Output → Output → Prop) (R : Code → Code → Prop) : Prop where
  same : ∀ c, R c c
  names : ∀ {o o'}, S o o' → o.fragments.map Fragment.name = o'.fragments.map Fragment.name
  issued : ∀ {o o'}, S o o' → o.issued = o'.issued
  drawn : ∀ {o o'}, S o o' → S { o with issued := o.issued + 1 } { o' with issued := o'.issued + 1 }
  warned : ∀ {o o'}, S o o' → ∀ operator,
    S { o with warnings := o.warnings ++ [⟨o.pendingChain.getD "chain", operator⟩] }
      { o' with warnings := o'.warnings ++ [⟨o'.pendingChain.getD "chain", operator⟩] }
  entered : ∀ {o o'}, S o o' → ∀ chain,
    S { o with pendingChain := some chain } { o' with pendingChain := some chain }
  left : ∀ {o o' u v}, S o o' → S u v →
    S { u with pendingChain := o.pendingChain } { v with pendingChain := o'.pendingChain }
  emitted : ∀ {o o'}, S o o' → ∀ name {body body'}, FragmentBody.Retested R body body' →
    S { o with fragments := o.fragments ++ [⟨name, body⟩] }
      { o' with fragments := o'.fragments ++ [⟨name, body'⟩] }

theorem Lasting.length (hS : Lasting S R) {o o' : Output} (h : S o o') :
    o.fragments.length = o'.fragments.length := by
  have hnames := congrArg List.length (hS.names h)
  rwa [List.length_map, List.length_map] at hnames

theorem Lasting.namesSince_eq (hS : Lasting S R) {o o' u u' : Output} (ho : S o o') (hu : S u u') :
    u.namesSince o.fragments.length = u'.namesSince o'.fragments.length := by
  rw [Output.namesSince, Output.namesSince, List.map_drop, List.map_drop, hS.names hu, hS.length ho]

namespace Corresponds

variable {Q : α → β → Prop} {P : α' → β' → Prop} {m : Lower α} {n : Lower β}

theorem imp {P : α → β → Prop} (h : Corresponds S Q m n) (hQ : ∀ a b, Q a b → P a b) :
    Corresponds S P m n := by
  intro o o' a b u v ho hm hn
  obtain ⟨hab, huv⟩ := h o o' a b u v ho hm hn
  exact ⟨hQ a b hab, huv⟩

protected theorem ofExcept {r : Except LoweringError α} {q : Except LoweringError β}
    (h : ∀ a b, r = .ok a → q = .ok b → Q a b) : Corresponds S Q (ofExcept r) (ofExcept q) := by
  intro o o' a b u v ho hm hn
  have hr : r = .ok a := congrArg Prod.fst hm
  have hq : q = .ok b := congrArg Prod.fst hn
  obtain rfl : o = u := congrArg Prod.snd hm
  obtain rfl : o' = v := congrArg Prod.snd hn
  exact ⟨h a b hr hq, ho⟩

theorem same (r : Except LoweringError α) : Corresponds S Eq (ofExcept r) (ofExcept r) :=
  Corresponds.ofExcept fun _ _ ha hb => Except.ok.inj (ha.symm.trans hb)

theorem pure {a : α} {b : β} (h : Q a b) : Corresponds S Q (Pure.pure a) (Pure.pure b) := by
  refine Corresponds.ofExcept (r := .ok a) (q := .ok b) fun _ _ ha hb => ?_
  cases ha
  cases hb
  exact h

theorem fail_left (e : LoweringError) (n : Lower β) : Corresponds S Q (fail e : Lower α) n := by
  intro o o' a b u v _ hm
  cases hm

theorem fail_right (m : Lower α) (e : LoweringError) : Corresponds S Q m (fail e : Lower β) := by
  intro o o' a b u v _ _ hn
  cases hn

theorem bind {f : α → Lower α'} {g : β → Lower β'} (h : Corresponds S Q m n)
    (hf : ∀ a b, Q a b → Corresponds S P (f a) (g b)) : Corresponds S P (m >>= f) (n >>= g) := by
  intro o o' a b u v ho hm hn
  obtain ⟨a', u', hma, hfa⟩ := bind_ok hm
  obtain ⟨b', v', hnb, hgb⟩ := bind_ok hn
  obtain ⟨hab, huv⟩ := h o o' a' b' u' v' ho hma hnb
  exact hf a' b' hab u' v' a b u v huv hfa hgb

theorem bind_eq {n : Lower α} {f : α → Lower α'} {g : α → Lower β'} (h : Corresponds S Eq m n)
    (hf : ∀ a, Corresponds S P (f a) (g a)) : Corresponds S P (m >>= f) (n >>= g) :=
  bind h fun a _ hab => hab ▸ hf a

theorem map {f : α → α'} {g : β → β'} (h : Corresponds S Q m n) (hf : ∀ a b, Q a b → P (f a) (g b)) :
    Corresponds S P (f <$> m) (g <$> n) :=
  bind h fun a b hab => pure (hf a b hab)

theorem state_bind {f : Output → Lower α} {g : Output → Lower β}
    (h : ∀ o o', S o o' → Corresponds S Q (f o) (g o')) : Corresponds S Q (state >>= f) (state >>= g) :=
  fun o o' a b u v ho hm hn => h o o' ho o o' a b u v ho hm hn

variable (hS : Lasting S R)
include hS

theorem warn (operator : String) : Corresponds S Eq (Lowering.warn operator) (Lowering.warn operator) := by
  intro o o' a b u v ho hm hn
  cases hm
  cases hn
  exact ⟨rfl, hS.warned ho operator⟩

protected theorem withinChain (h : Corresponds S Q m n) (chain : String) :
    Corresponds S Q (withinChain chain m) (withinChain chain n) := by
  intro o o' a b u v ho hm hn
  have ha : (m.run { o with pendingChain := some chain }).1 = .ok a := congrArg Prod.fst hm
  have hb : (n.run { o' with pendingChain := some chain }).1 = .ok b := congrArg Prod.fst hn
  obtain ⟨hab, hout⟩ := h _ _ a b _ _ (hS.entered ho chain) (Prod.ext ha rfl) (Prod.ext hb rfl)
  obtain rfl := congrArg Prod.snd hm
  obtain rfl := congrArg Prod.snd hn
  exact ⟨hab, hS.left ho hout⟩

/-- Fragments that correspond are called alike. -/
theorem named {f g : String → Lower FragmentBody} (stem : String)
    (h : ∀ name, Corresponds S (FragmentBody.Retested R) (f name) (g name)) :
    Corresponds S Eq (named stem f) (named stem g) := by
  intro o o' a b u v ho hm hn
  have hdrawn := hS.drawn ho
  rw [named_run] at hm hn
  rw [← hS.issued ho] at hn hdrawn
  split at hm
  · next body t hbody =>
    cases hm
    split at hn
    · next body' t' hbody' =>
      cases hn
      obtain ⟨hretested, hout⟩ := h _ _ _ _ _ _ _ hdrawn hbody hbody'
      exact ⟨by rw [hS.length hout], hS.emitted hout _ hretested⟩
    · cases hn
  · cases hm

end Corresponds

/-! ### Arguments -/

/-- What two arguments say: the same, or the one a number and the other as many milliseconds. -/
inductive Amount.Reads : Amount → Amount → Prop where
  | same (x : Amount) : Reads x x
  | milliseconds (ms : Int64) : Reads (.integer ms) (.duration ms)

variable {scope scope' : Scope}

/-- The two expressions read as arguments that are related, whatever calls they are arguments of. -/
def AmountsConcur (scope scope' : Scope) (R : Amount → Amount → Prop) (e e' : Expr) : Prop :=
  ∀ c c' x y, amount scope c e = .ok x → amount scope' c' e' = .ok y → R x y

theorem AmountsConcur.reads {e e' : Expr} (h : AmountsConcur scope scope' Eq e e') :
    AmountsConcur scope scope' Amount.Reads e e' :=
  fun c c' a b ha hb => h c c' a b ha hb ▸ .same a

/-- The arguments are lowered to related code, and read as amounts or as an extension alike. -/
structure OperandsCorrespond (S : Output → Output → Prop) (R : Code → Code → Prop) (scope scope' : Scope)
    (a b : Operand) : Prop where
  lower : Corresponds S R a.lower b.lower
  amount : AmountsConcur scope scope' Amount.Reads a.expr b.expr
  extension : filterExtension? scope a.expr = filterExtension? scope' b.expr

structure CallsCorrespond (S : Output → Output → Prop) (R : Code → Code → Prop) (scope scope' : Scope)
    (c c' : OperandCall) : Prop where
  name : c.name.text = c'.name.text
  strict : c.strict = c'.strict
  args : List.Forall₂ (OperandsCorrespond S R scope scope') c.args c'.args
  extent : c.IsSampler →
    List.Forall₂ (fun a b => AmountsConcur scope scope' Eq a.expr b.expr) c.args c'.args
  verdict : c.name.text = "meet" → List.Forall₂ (fun a b => Corresponds S Eq a.lower b.lower) c.args c'.args

variable {c c' : OperandCall} {a b : Operand}

theorem condition_corresponds {Q : Code → Code → Prop} (h : Corresponds S Q a.lower b.lower) :
    Corresponds S Q (condition c a) (condition c' b) := by
  rw [condition, condition]
  cases isCondition a.expr with
  | false => exact .fail_left _ _
  | true =>
    cases isCondition b.expr with
    | false => exact .fail_right _ _
    | true => exact h

section

variable {R : Amount → Amount → Prop} {e e' : Expr} {γ γ' : Type} {n : γ} {n' : γ'}

theorem amounts_of_ok {f : Amount → Except LoweringError γ} {g : Amount → Except LoweringError γ'}
    (h : AmountsConcur scope scope' R e e') (hf : (amount scope c e >>= f) = .ok n)
    (hg : (amount scope' c' e' >>= g) = .ok n') : ∃ x y, R x y ∧ f x = .ok n ∧ g y = .ok n' := by
  cases hx : amount scope c e with
  | error err =>
    rw [hx] at hf
    cases hf
  | ok x =>
    cases hy : amount scope' c' e' with
    | error err =>
      rw [hy] at hg
      cases hg
    | ok y =>
      rw [hx] at hf
      rw [hy] at hg
      exact ⟨x, y, h c c' x y hx hy, hf, hg⟩

end

variable {e e' : Expr}

theorem integerArgument_eq (h : AmountsConcur scope scope' Amount.Reads e e') {n n' : Int64}
    (hn : integerArgument scope c e = .ok n) (hn' : integerArgument scope' c' e' = .ok n') : n = n' := by
  obtain ⟨x, y, hxy, hx, hy⟩ := amounts_of_ok h hn hn'
  cases hxy with
  | same =>
    cases x with
    | integer k =>
      cases hx
      cases hy
      rfl
    | _ => cases hx
  | milliseconds ms => cases hy

theorem eq_of_guarded {γ : Type} {p : Prop} [Decidable p] {v w : γ} {err : LoweringError}
    (h : (if p then pure v else throw err : Except LoweringError γ) = .ok w) : w = v := by
  split at h
  · cases h
    rfl
  · cases h

theorem countArgument_eq (h : AmountsConcur scope scope' Amount.Reads e e') {n n' : Nat}
    (hn : countArgument scope c e = .ok n) (hn' : countArgument scope' c' e' = .ok n') : n = n' := by
  obtain ⟨x, y, hxy, hx, hy⟩ := amounts_of_ok h hn hn'
  cases hxy with
  | same =>
    cases x with
    | integer k => exact (eq_of_guarded hx).trans (eq_of_guarded hy).symm
    | _ => cases hx
  | milliseconds ms => cases hy

theorem durationArgument_eq (h : AmountsConcur scope scope' Amount.Reads e e') {n n' : Int64}
    (hn : durationArgument scope c e = .ok n) (hn' : durationArgument scope' c' e' = .ok n') : n = n' := by
  obtain ⟨x, y, hxy, hx, hy⟩ := amounts_of_ok h hn hn'
  cases hxy with
  | same =>
    cases x with
    | other => cases hx
    | _ => exact (eq_of_guarded hx).trans (eq_of_guarded hy).symm
  | milliseconds ms => exact (eq_of_guarded hx).trans (eq_of_guarded hy).symm

/-- An extent has to be read alike. -/
theorem extentArgument_eq (h : AmountsConcur scope scope' Eq e e') {x x' : Chain.Extent}
    (hx : extentArgument scope c e = .ok x) (hx' : extentArgument scope' c' e' = .ok x') : x = x' := by
  obtain ⟨k, _, rfl, hx, hx'⟩ := amounts_of_ok h hx hx'
  cases k with
  | other => cases hx
  | _ => exact (eq_of_guarded hx).trans (eq_of_guarded hx').symm

/-! ### Monitors -/

theorem condition_then_corresponds {γ δ : Type} {Q : δ → δ → Prop}
    (h : OperandsCorrespond S R scope scope' a b) {r q : Except LoweringError γ}
    (hrq : ∀ n n', r = .ok n → q = .ok n' → n = n') {f : Code → γ → δ}
    (hf : ∀ {c d : Code} (n : γ), R c d → Q (f c n) (f d n)) :
    Corresponds S Q (condition c a >>= fun code => ofExcept r >>= fun n => pure (f code n))
      (condition c' b >>= fun code => ofExcept q >>= fun n => pure (f code n)) :=
  .bind (condition_corresponds h.lower) fun _ _ hcode =>
    .bind_eq (.ofExcept hrq) fun n => .pure (hf n hcode)

theorem monitorPlan_corresponds (h : CallsCorrespond S R scope scope' c c') (kind : MonitorKind) :
    Corresponds S (Monitor.Plan.Recoded R) (monitorPlan scope kind c) (monitorPlan scope' kind c') := by
  have hargs := h.args
  generalize hc' : c'.args = args at hargs
  fun_cases monitorPlan scope kind c with
  | case1 test times hc =>
    rw [hc] at hargs
    rcases hargs with _ | ⟨htest, _ | ⟨htimes, _ | _⟩⟩
    simp only [monitorPlan, hc', ← h.strict]
    exact condition_then_corresponds htest (fun _ _ => countArgument_eq htimes.amount)
      fun n hcode => .count n c.strict hcode
  | case2 test time hc =>
    rw [hc] at hargs
    rcases hargs with _ | ⟨htest, _ | ⟨htime, _ | _⟩⟩
    simp only [monitorPlan, hc']
    exact condition_then_corresponds htest (fun _ _ => durationArgument_eq htime.amount)
      fun ms hcode => .keep ms hcode
  | case3 time hc =>
    rw [hc] at hargs
    rcases hargs with _ | ⟨htime, _ | _⟩
    simp only [monitorPlan, hc']
    exact .bind_eq (.ofExcept fun _ _ => durationArgument_eq htime.amount) fun ms => .pure (.delay ms)
  | case4 test hc =>
    rw [hc] at hargs
    rcases hargs with _ | ⟨htest, _ | _⟩
    simp only [monitorPlan, hc']
    exact .bind (condition_corresponds htest.lower) fun _ _ hcode => .pure (.slope _ hcode)
  | case5 test unit hc =>
    rw [hc] at hargs
    rcases hargs with _ | ⟨htest, _ | ⟨hunit, _ | _⟩⟩
    simp only [monitorPlan, hc']
    exact condition_then_corresponds htest (fun _ _ => durationArgument_eq hunit.amount)
      fun unit hcode => .slope unit hcode
  | case6 kind args => exact .fail_left _ _

theorem monitor_corresponds (hS : Lasting S R) (h : CallsCorrespond S R scope scope' c c')
    (kind : MonitorKind) : Corresponds S Eq (monitor scope kind c) (monitor scope' kind c') := by
  rw [monitor_eq_named, monitor_eq_named, h.name]
  exact .named hS _ fun _ => (monitorPlan_corresponds h kind).map fun _ _ hplan => .monitor hplan

/-! ### Elements of chains -/

/-- The second element has another condition, but a verdict is the same. -/
inductive Element.Retested (R : Code → Code → Prop) : Element → Element → Prop where
  | same (e : Element) : Retested R e e
  | filter {t t' : Test} (h : Test.Recoded R t t') : Retested R (.filter (some t)) (.filter (some t'))
  | hitRate {c d : Code} (h : R c d) : Retested R (.aggregate (.hitRate c)) (.aggregate (.hitRate d))

theorem plain_corresponds (e : Element) :
    Corresponds S (Element.Retested R) (plain c e) (plain c' e) := by
  rw [plain, plain]
  cases c.args.isEmpty with
  | false => exact .fail_left _ _
  | true =>
    cases c'.args.isEmpty with
    | false => exact .fail_right _ _
    | true => exact .pure (.same e)

theorem filterElement_corresponds (h : CallsCorrespond S R scope scope' c c') :
    Corresponds S (Element.Retested R) (filterElement scope c) (filterElement scope' c') := by
  have hargs := h.args
  generalize hc' : c'.args = args at hargs
  fun_cases filterElement scope c with
  | case1 hc =>
    rw [hc] at hargs
    cases hargs
    simp only [filterElement, hc']
    exact .pure (.same _)
  | case2 test hc name hname =>
    rw [hc] at hargs
    rcases hargs with _ | ⟨htest, _ | _⟩
    simp only [filterElement, hc', ← htest.extension, hname]
    exact .pure (.same _)
  | case3 test hc hname =>
    rw [hc] at hargs
    rcases hargs with _ | ⟨htest, _ | _⟩
    simp only [filterElement, hc', ← htest.extension, hname]
    exact .bind (condition_corresponds htest.lower) fun _ _ hcode => .pure (.filter (.condition hcode))
  | case4 => exact .fail_left _ _

theorem sampleElement_corresponds (h : CallsCorrespond S R scope scope' c c') (hc : c.IsSampler)
    (wrap : Chain.Extent → Chain.Sampler) :
    Corresponds S (Element.Retested R) (sampleElement scope c wrap) (sampleElement scope' c' wrap) := by
  have hargs := h.extent hc
  generalize hc' : c'.args = args at hargs
  fun_cases sampleElement scope c wrap with
  | case1 extent hc =>
    rw [hc] at hargs
    rcases hargs with _ | ⟨hextent, _ | _⟩
    simp only [sampleElement, hc']
    exact .bind_eq (.ofExcept fun _ _ => extentArgument_eq hextent) fun _ => .pure (.same _)
  | case2 => exact .fail_left _ _

theorem takeElement_corresponds (h : CallsCorrespond S R scope scope' c c') :
    Corresponds S (Element.Retested R) (takeElement scope c) (takeElement scope' c') := by
  have hargs := h.args
  generalize hc' : c'.args = args at hargs
  fun_cases takeElement scope c with
  | case1 start hc =>
    rw [hc] at hargs
    rcases hargs with _ | ⟨hstart, _ | _⟩
    simp only [takeElement, hc']
    exact .bind_eq (.ofExcept fun _ _ => integerArgument_eq hstart.amount) fun _ => .pure (.same _)
  | case2 start stop hc =>
    rw [hc] at hargs
    rcases hargs with _ | ⟨hstart, _ | ⟨hstop, _ | _⟩⟩
    simp only [takeElement, hc']
    refine .bind_eq (.ofExcept fun _ _ => integerArgument_eq hstart.amount) fun n => ?_
    exact .bind_eq (.ofExcept fun _ _ => integerArgument_eq hstop.amount) fun _ => .pure (.same _)
  | case3 => exact .fail_left _ _

theorem conditionElement_corresponds {Q : Code → Code → Prop} {wrap : Code → Element}
    (h : List.Forall₂ (fun a b => Corresponds S Q a.lower b.lower) c.args c'.args)
    (hwrap : ∀ {c d : Code}, Q c d → Element.Retested R (wrap c) (wrap d)) :
    Corresponds S (Element.Retested R) (conditionElement c wrap) (conditionElement c' wrap) := by
  generalize hc' : c'.args = args at h
  fun_cases conditionElement c wrap with
  | case1 test hc =>
    rw [hc] at h
    rcases h with _ | ⟨htest, _ | _⟩
    simp only [conditionElement, hc']
    exact .bind (condition_corresponds htest) fun _ _ hcode => .pure (hwrap hcode)
  | case2 => exact .fail_left _ _

section

variable (hregistry : scope.registry = scope'.registry)
include hregistry

theorem extensionElement_corresponds (h : CallsCorrespond S R scope scope' c c') :
    Corresponds S (Element.Retested R) (extensionElement scope c) (extensionElement scope' c') := by
  rw [extensionElement, extensionElement, hregistry, ← h.name]
  cases scope'.registry.kind? c.name.text with
  | none => exact .fail_left _ _
  | some kind => cases kind <;> exact plain_corresponds _

theorem element_corresponds (h : CallsCorrespond S R scope scope' c c') :
    Corresponds S (Element.Retested R) (element scope c) (element scope' c') := by
  have hconditions : List.Forall₂ (fun a b => Corresponds S R a.lower b.lower) c.args c'.args :=
    h.args.imp fun _ _ hab => hab.lower
  rw [element, element, ← h.strict, ← h.name]
  cases c.strict with
  | true => exact .fail_left _ _
  | false =>
    simp only [Bool.false_eq_true, if_false]
    split
    · exact filterElement_corresponds h
    · exact plain_corresponds .collect
    · next hname => exact sampleElement_corresponds h (.inl hname) .limit
    · next hname => exact sampleElement_corresponds h (.inr hname) .window
    · exact takeElement_corresponds h
    · exact plain_corresponds (.aggregate .sum)
    · exact plain_corresponds (.aggregate .avg)
    · exact plain_corresponds (.aggregate .min)
    · exact plain_corresponds (.aggregate .max)
    · exact plain_corresponds (.aggregate .stddev)
    · exact plain_corresponds (.aggregate .count)
    · exact conditionElement_corresponds hconditions fun hcode => .hitRate hcode
    · next hname => exact conditionElement_corresponds (h.verdict hname) fun hcode => hcode ▸ .same _
    · exact plain_corresponds .clear
    · exact extensionElement_corresponds hregistry h

end

/-! ### Chains -/

/-- The second draft has other conditions, but a verdict is the same. The token of its last element is
told in messages only. -/
structure Draft.Retested (R : Code → Code → Prop) (d d' : Draft) : Prop where
  phase : d.phase = d'.phase
  filters : List.Forall₂ (Test.Recoded R) d.filters d'.filters
  sampler : d.sampler = d'.sampler
  take : d.take = d'.take
  aggregation : Option.Rel (Chain.Aggregation.Recoded R) d.aggregation d'.aggregation
  verdict : d.verdict = d'.verdict
  clears : d.clears = d'.clears

section

variable {d d' : Draft} {e e' : Element}

theorem phase_of_retested (h : e.Retested R e') : e.phase = e'.phase := by
  cases h <;> rfl

theorem lacksFilter_retested (hd : d.Retested R d') (he : e.Retested R e') :
    d.lacksFilter e = d'.lacksFilter e' := by
  rw [Draft.lacksFilter, Draft.lacksFilter, hd.phase, phase_of_retested he]

variable (hR : ∀ c, R c c)
include hR

theorem record_retested (hd : d.Retested R d') (he : e.Retested R e') :
    (d.record e).Retested R (d'.record e') := by
  cases he with
  | filter h => exact { hd with filters := List.rel_append hd.filters (.cons h .nil) }
  | hitRate h => exact { hd with aggregation := .some (.hitRate h) }
  | same e =>
    cases e with
    | filter test =>
      exact { hd with filters :=
        List.rel_append hd.filters (List.forall₂_same.mpr fun t _ => .same hR t) }
    | collect => exact hd
    | sample sampler => exact { hd with sampler := rfl }
    | take start stop => exact { hd with take := rfl }
    | aggregate how => exact { hd with aggregation := .some (.same hR how) }
    | verdict test => exact { hd with verdict := rfl }
    | clear => exact { hd with clears := rfl }

theorem push_retested {y y' : Draft} {name name' : Token} (hd : d.Retested R d') (he : e.Retested R e')
    (hy : d.push name e = .ok y) (hy' : d'.push name' e' = .ok y') : y.Retested R y' := by
  have hbefore : d.samplerBefore e = d'.samplerBefore e' := by
    rw [Draft.samplerBefore, Draft.samplerBefore, phase_of_retested he, hd.sampler]
  have hrecord := record_retested hR hd he
  rw [Draft.push, lacksFilter_retested hd he, hbefore, hd.phase, phase_of_retested he] at hy
  rw [Draft.push] at hy'
  cases hsampler : d'.samplerBefore e' with
  | some existing =>
    rw [hsampler] at hy
    cases hy
  | none =>
    rw [hsampler] at hy hy'
    dsimp only at hy hy'
    generalize (if d'.lacksFilter e' = true then Phase.filter else d'.phase) = phase at hy hy'
    cases haccepts : phase.accepts e'.phase with
    | false =>
      rw [haccepts] at hy
      cases hy
    | true =>
      rw [haccepts] at hy hy'
      cases hy
      cases hy'
      exact { hrecord with phase := rfl }

theorem plan_retested (hd : d.Retested R d') {plan plan' : Chain.Plan} (hplan : d.plan? = some plan)
    (hplan' : d'.plan? = some plan') : FragmentBody.Retested R (.chain plan) (.chain plan') := by
  obtain ⟨-, hfilters, hsampler, htake, haggregation, hverdict, hclears⟩ := hd
  rw [Draft.plan?, ← hverdict] at hplan'
  rw [Draft.plan?] at hplan
  generalize d.aggregation = how at haggregation hplan
  generalize d'.aggregation = how' at haggregation hplan'
  cases haggregation with
  | none => cases hplan
  | some hhow =>
    cases hv : d.verdict with
    | none =>
      rw [hv] at hplan
      cases hplan
    | some verdict =>
      rw [hv] at hplan hplan'
      cases hplan
      cases hplan'
      exact .chain ⟨hfilters, hsampler, htake, hhow, .same hR verdict, hclears⟩ rfl

end

section

variable (hS : Lasting S R) (hregistry : scope.registry = scope'.registry)
include hS hregistry

theorem pipeline_corresponds {calls calls' : List OperandCall}
    (h : List.Forall₂ (CallsCorrespond S R scope scope') calls calls') {d d' : Draft}
    (hd : d.Retested R d') :
    Corresponds S (Draft.Retested R) (pipeline scope d calls) (pipeline scope' d' calls') := by
  induction h generalizing d d' with
  | nil => exact .pure hd
  | @cons c c' cs cs' hc _ ih =>
    refine .bind (element_corresponds hregistry hc) fun e e' he => ?_
    have hpush : Corresponds S (Draft.Retested R)
        (ofExcept (d.push c.name e) >>= fun y => pipeline scope y cs)
        (ofExcept (d'.push c'.name e') >>= fun y => pipeline scope' y cs') :=
      .bind (.ofExcept fun _ _ => push_retested hS.same hd he) fun _ _ hy => ih hy
    rw [lacksFilter_retested hd he, hc.name]
    cases d'.lacksFilter e' with
    | true => exact .bind_eq (.warn hS _) fun _ => hpush
    | false => exact hpush

theorem chain_corresponds {calls calls' : List OperandCall}
    (h : List.Forall₂ (CallsCorrespond S R scope scope') calls calls') :
    Corresponds S Eq (chain scope calls) (chain scope' calls') := by
  have hplan : Corresponds S (fun p q => FragmentBody.Retested R (.chain p) (.chain q))
      (chainPlan scope calls) (chainPlan scope' calls') := by
    refine .bind (pipeline_corresponds hS hregistry h ⟨rfl, .nil, rfl, rfl, .none, rfl, rfl⟩)
      fun d d' hd => ?_
    cases hp : d.plan? with
    | none => exact .fail_left _ _
    | some plan =>
      cases hq : d'.plan? with
      | none => exact .fail_right _ _
      | some plan' => exact .pure (plan_retested hS.same hd hp hq)
  rw [chain_eq_named, chain_eq_named]
  exact .named hS _ fun name => (hplan.withinChain hS name).map fun _ _ h => h

theorem call_corresponds (h : CallsCorrespond S R scope scope' c c') :
    Corresponds S Eq (call scope c) (call scope' c') := by
  rw [call, call, ← h.strict, ← h.name, hregistry]
  cases c.strict && c.name.text != "count" with
  | true => exact .fail_left _ _
  | false =>
    simp only [Bool.false_eq_true, if_false]
    cases MonitorKind.ofName? c.name.text with
    | some kind => exact monitor_corresponds hS h kind
    | none =>
      dsimp only
      split
      · cases c.args.isEmpty with
        | false => exact .fail_left _ _
        | true =>
          cases c'.args.isEmpty with
          | false => exact .fail_right _ _
          | true => exact .pure rfl
      · split
        · exact chain_corresponds hS hregistry (.cons h .nil)
        · exact .fail_left _ _

end

/-! ### Arrows -/

variable {stages stages' : List (Stage Expr)}

theorem stages_correspond (h : List.Forall₂ (fun s t : Stage Expr =>
      Corresponds S R (lower scope s.body) (lower scope' t.body)) stages stages') :
    Corresponds S (List.Forall₂ R) (lowerStages scope stages) (lowerStages scope' stages') := by
  induction h with
  | nil => exact .pure .nil
  | @cons s t ss ts hbody _ ih =>
    obtain ⟨opening, body⟩ := s
    obtain ⟨opening', body'⟩ := t
    rw [lowerStages, lowerStages]
    cases body.containsArrow with
    | true => exact .fail_left _ _
    | false =>
      cases body'.containsArrow with
      | true => exact .fail_right _ _
      | false => exact .bind hbody fun _ _ hcode => .bind ih fun _ _ hcodes => .pure (.cons hcode hcodes)

theorem arrow_corresponds (hS : Lasting S R) (h : List.Forall₂ (fun s t : Stage Expr =>
      Corresponds S R (lower scope s.body) (lower scope' t.body)) stages stages') :
    Corresponds S Eq (lower scope (.arrow stages)) (lower scope' (.arrow stages')) := by
  rw [arrow_eq_named, arrow_eq_named]
  refine .named hS _ fun _ => .state_bind fun o o' ho => .bind (stages_correspond h) fun _ _ hcodes => ?_
  exact .state_bind fun u u' hu => .pure (.arrow ⟨hcodes, hS.namesSince_eq ho hu⟩)

end Lowering

end EventRules
