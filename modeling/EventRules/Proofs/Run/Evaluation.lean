import EventRules.Proofs.Run.Agreement

/-!
# Twins run alike

Code, chains, arrows, monitors and whole fragments that are twins are coupled: on sessions that agree
they answer the same, or fail with errors that differ in a name only, and leave sessions that agree. A
fragment calls fragments before it, so this goes by induction on its place. The only errors are those of
a take that can select nothing and, where code may calculate, of a calculation.
-/

namespace EventRules
set_option autoImplicit false

open Routine

/-- Errors of the two copies of one fragment. -/
inductive RunError.Twin (site : Site) : RunError → RunError → Prop where
  | startAfterEnd {j : Nat} {f g : Fragment} {p : Chain.Plan} {start stop : Int64}
      (hf : site.left[site.offset + j]? = some f) (hg : site.right[j]? = some g)
      (hp : g.body = .chain p) (ht : p.take = some (start, some stop))
      (he : Chain.isEmptyTake start (some stop) = true) :
      Twin site (.startAfterEnd f.name start stop) (.startAfterEnd g.name start stop)
  | calculation (h : site.calculates) (e : CalculationError) :
      Twin site (.calculation e) (.calculation e)

def Site.leftFrame (site : Site) (event : Event) (anchor : Option Int64) : Frame :=
  ⟨event, anchor, site.left, site.registry⟩

def Site.rightFrame (site : Site) (event : Event) (anchor : Option Int64) : Frame :=
  ⟨event, anchor, site.right, site.registry⟩

variable {site : Site} {bound : Nat} {S : Session → Session → Prop}

/-- Calls of the fragments in front of the place `bound` are coupled. -/
def CallsCoupled (site : Site) (S : Session → Session → Prop) (bound : Nat)
    (call call' : String → Nat → Frame → Run Bool) : Prop :=
  ∀ {j : Nat} {x y : String}, j < bound → site.Place j x y → ∀ event anchor,
    Coupled S (RunError.Twin site) Eq (call x (site.offset + j) (site.leftFrame event anchor))
      (call' y j (site.rightFrame event anchor))

/-- Evaluations of code in front of the place `bound` are coupled. -/
def CodeCoupled (site : Site) (S : Session → Session → Prop) (bound : Nat) (eval eval' : Evaluator) :
    Prop :=
  ∀ {c d : Code}, Code.Twin site bound c d → ∀ subject event anchor,
    Coupled S (RunError.Twin site) Eq (eval c subject (site.leftFrame event anchor))
      (eval' d subject (site.rightFrame event anchor))

/-! ### Code -/

theorem calculate_coupled {α : Type} {r : Except CalculationError α}
    (h : ∀ e, r = .error e → site.calculates) :
    Coupled S (RunError.Twin site) Eq (Run.calculate r) (Run.calculate r) := by
  apply Coupled.ofExcept
  cases r with
  | ok a => exact .ok rfl
  | error e => exact .error (.calculation (h e rfl) e)

theorem extension_coupled {α : Type} {r : Except ExtensionError α} {a : α} (h : r = .ok a) :
    Coupled S (RunError.Twin site) Eq (Run.extension r) (Run.extension r) := by
  subst h
  exact Coupled.ofExcept (.ok rfl)

theorem filter_of_kind {registry : Registry} {name : String}
    (h : registry.kind? name = some .filter) : ∃ f, registry.filter name = .ok f := by
  obtain ⟨e, he, hk⟩ := Option.map_eq_some_iff.mp h
  cases e with
  | filter f => exact ⟨f, by rw [Registry.filter, he]⟩
  | calculator f => cases hk
  | meet f => cases hk

theorem calculator_of_kind {registry : Registry} {name : String}
    (h : registry.kind? name = some .calculator) : ∃ f, registry.calculator name = .ok f := by
  obtain ⟨e, he, hk⟩ := Option.map_eq_some_iff.mp h
  cases e with
  | filter f => cases hk
  | calculator f => exact ⟨f, by rw [Registry.calculator, he]⟩
  | meet f => cases hk

theorem meet_of_kind {registry : Registry} {name : String}
    (h : registry.kind? name = some .meet) : ∃ f, registry.meet name = .ok f := by
  obtain ⟨e, he, hk⟩ := Option.map_eq_some_iff.mp h
  cases e with
  | filter f => cases hk
  | calculator f => cases hk
  | meet f => exact ⟨f, by rw [Registry.meet, he]⟩

theorem binary_error_calculates {op : BinaryOp} {l r : Value} {e : CalculationError}
    (h : Value.binary op l r = .error e) : op.calculates = true := by
  cases op with
  | or => cases h
  | and => cases h
  | compare c => cases h
  | _ => rfl

theorem codeCoupled {call call' : String → Nat → Frame → Run Bool}
    (hcall : CallsCoupled site S bound call call') :
    CodeCoupled site S bound (Code.evaluate call) (Code.evaluate call') := by
  intro c d hcd subject event anchor
  induction hcd with
  | literal v => exact Coupled.pure rfl
  | subject => exact Coupled.pure rfl
  | @binary op l l' r r' hop _ _ ihl ihr =>
    -- the logical operators skip the right side on both sides or on none
    cases op with
    | and =>
      refine Coupled.bind_eq ihl fun v => ?_
      cases v.asBool with
      | false => exact Coupled.pure rfl
      | true => exact Coupled.bind_eq ihr fun w => Coupled.pure rfl
    | or =>
      refine Coupled.bind_eq ihl fun v => ?_
      cases v.asBool with
      | false => exact Coupled.bind_eq ihr fun w => Coupled.pure rfl
      | true => exact Coupled.pure rfl
    | _ =>
      refine Coupled.bind_eq ihl fun v => Coupled.bind_eq ihr fun w => ?_
      exact calculate_coupled fun e he => hop (binary_error_calculates he)
  | not _ ih => exact Coupled.bind_eq ih fun v => Coupled.pure rfl
  | step up h _ ih =>
    exact Coupled.bind_eq ih fun v => calculate_coupled fun _ _ => h
  | compare op _ ih => exact Coupled.bind_eq ih fun v => Coupled.pure rfl
  | call hj hp => exact (hcall hj hp event anchor).map fun a b hab => congrArg Value.boolean hab
  | filter h =>
    obtain ⟨f, hf⟩ := filter_of_kind h
    exact Coupled.bind_eq (extension_coupled hf) fun f => Coupled.pure rfl

section

variable {eval eval' : Evaluator} {event : Event} {anchor : Option Int64}

theorem holds_coupled (h : CodeCoupled site S bound eval eval') {c d : Code}
    (hc : Code.Twin site bound c d) (subject : Value) (event : Event) (anchor : Option Int64) :
    Coupled S (RunError.Twin site) Eq (eval.holds c subject (site.leftFrame event anchor))
      (eval'.holds d subject (site.rightFrame event anchor)) :=
  (h hc subject event anchor).map fun _ _ hab => congrArg Value.asBool hab

/-! ### Chains -/

theorem admits_coupled (h : CodeCoupled site S bound eval eval') {tests tests' : List Test}
    (ht : List.Forall₂ (Test.Twin site bound .filter) tests tests') :
    Coupled S (RunError.Twin site) Eq (Chain.admits eval (site.leftFrame event anchor) tests)
      (Chain.admits eval' (site.rightFrame event anchor) tests') := by
  induction ht with
  | nil => exact Coupled.pure rfl
  | @cons test test' tests tests' htest _ ih =>
    have hnext : ∀ passed : Bool, Coupled S (RunError.Twin site) Eq
        (if passed then Chain.admits eval (site.leftFrame event anchor) tests else pure false)
        (if passed then Chain.admits eval' (site.rightFrame event anchor) tests' else pure false) := by
      intro passed
      cases passed with
      | false => exact Coupled.pure rfl
      | true => exact ih
    cases htest with
    | condition hc => exact Coupled.bind_eq (holds_coupled h hc _ event anchor) hnext
    | extension he =>
      obtain ⟨f, hf⟩ := filter_of_kind he
      exact Coupled.bind_eq (extension_coupled hf) fun f => hnext (f event)

theorem judge_coupled (h : CodeCoupled site S bound eval eval') {test test' : Test}
    (ht : Test.Twin site bound .meet test test') (v : Value) :
    Coupled S (RunError.Twin site) Eq (Chain.judge eval (site.leftFrame event anchor) test v)
      (Chain.judge eval' (site.rightFrame event anchor) test' v) := by
  cases ht with
  | condition hc => exact holds_coupled h hc v event anchor
  | extension he =>
    obtain ⟨f, hf⟩ := meet_of_kind he
    exact Coupled.bind_eq (extension_coupled hf) fun f => Coupled.pure rfl

theorem countHits_coupled (h : CodeCoupled site S bound eval eval') {c d : Code}
    (hc : Code.Twin site bound c d) (batch : List Event) :
    Coupled S (RunError.Twin site) Eq (Chain.countHits eval c (site.leftFrame event anchor) batch)
      (Chain.countHits eval' d (site.rightFrame event anchor) batch) := by
  induction batch with
  | nil => exact Coupled.pure rfl
  | cons e es ih =>
    refine Coupled.bind_eq (holds_coupled h hc e.value event anchor) fun hit => ?_
    exact Coupled.bind_eq ih fun others => Coupled.pure rfl

theorem aggregate_coupled (h : CodeCoupled site S bound eval eval') {how how' : Chain.Aggregation}
    (ha : Chain.Aggregation.Twin site bound how how') (batch : List Event) :
    Coupled S (RunError.Twin site) Eq
      (Chain.aggregate eval how batch (site.leftFrame event anchor))
      (Chain.aggregate eval' how' batch (site.rightFrame event anchor)) := by
  cases ha with
  | sum => exact Coupled.pure rfl
  | avg => exact Coupled.pure rfl
  | min => exact Coupled.pure rfl
  | max => exact Coupled.pure rfl
  | stddev => exact Coupled.pure rfl
  | count => exact Coupled.pure rfl
  | hitRate hc =>
    refine Coupled.ite (Coupled.pure rfl) ?_
    exact Coupled.bind_eq (countHits_coupled h hc batch) fun hits => Coupled.pure rfl
  | extension he =>
    obtain ⟨f, hf⟩ := calculator_of_kind he
    exact Coupled.bind_eq (extension_coupled hf) fun f => Coupled.pure rfl

theorem checkTake_coupled {j : Nat} {f g : Fragment} {p : Chain.Plan}
    (hf : site.left[site.offset + j]? = some f) (hg : site.right[j]? = some g)
    (hp : g.body = .chain p) :
    Coupled S (RunError.Twin site) Eq (Chain.checkTake f.name p.take)
      (Chain.checkTake g.name p.take) := by
  cases ht : p.take with
  | none => exact Coupled.pure rfl
  | some span =>
    obtain ⟨start, stop⟩ := span
    cases stop with
    | none => exact Coupled.pure rfl
    | some stop =>
      rw [Chain.checkTake, Chain.checkTake]
      cases he : Chain.isEmptyTake start (some stop) with
      | false => exact Coupled.pure rfl
      | true => exact Coupled.fail (.startAfterEnd hf hg hp ht he)

variable {exact : Prop} {base base' : Keyed FragmentState}

theorem note_coupled (e e' : TraceEntry) :
    Coupled (Agree site exact base base') (RunError.Twin site) (fun _ _ => True) (Run.note e)
      (Run.note e') :=
  Coupled.change fun _ _ h => h.note e e'

theorem chain_coupled (h : CodeCoupled site (Agree site exact base base') bound eval eval') {j : Nat}
    {f g : Fragment} {p q : Chain.Plan} (hf : site.left[site.offset + j]? = some f)
    (hg : site.right[j]? = some g) (hq : g.body = .chain q) (hpq : Chain.Plan.Twin site bound p q) :
    Coupled (Step.Both (Chain.State.Similar exact) (Agree site exact base base')) (RunError.Twin site)
      Eq (Chain.run eval f.name p (site.leftFrame event anchor))
      (Chain.run eval' g.name q (site.rightFrame event anchor)) := by
  rw [Chain.run, Chain.run, hpq.take, hpq.sampler, hpq.clears]
  refine Coupled.bind_eq (Step.lift_coupled (checkTake_coupled hf hg hq)) fun _ => ?_
  refine Coupled.bind_eq (Step.lift_coupled (admits_coupled h hpq.filters)) fun admitted => ?_
  refine Coupled.bind Step.own_coupled fun a b hab => ?_
  simp only [hab.retained]
  -- both retain the same, and hand on the same
  have hset : ∀ own : Chain.State, Chain.State.Similar exact own own := fun _ => ⟨rfl, fun _ => rfl⟩
  refine Coupled.bind (Step.setOwn_coupled (hset _)) fun _ _ _ => ?_
  have hevent : (site.leftFrame event anchor).event = (site.rightFrame event anchor).event := rfl
  rw [hevent]
  cases (Chain.retain q.sampler b.retained (site.rightFrame event anchor).event admitted).2.bind
      (Chain.takeFrom q.take) with
  | none => exact Coupled.pure rfl
  | some batch =>
    refine Coupled.bind_eq (Step.lift_coupled (aggregate_coupled h hpq.aggregation batch)) fun v => ?_
    refine Coupled.bind_eq (Step.lift_coupled (judge_coupled h hpq.verdict v)) fun verdict => ?_
    refine Coupled.bind (Step.lift_coupled (note_coupled _ _)) fun _ _ _ => ?_
    cases verdict && q.clears with
    | false => exact Coupled.pure rfl
    | true =>
      refine Coupled.bind Step.own_coupled fun a b hab => ?_
      refine Coupled.bind (Step.setOwn_coupled ?_) fun _ _ _ => Coupled.pure rfl
      exact ⟨rfl, hab.emitted⟩

/-! ### Arrows and monitors -/

theorem arrow_coupled (hw : site.Twins)
    (h : CodeCoupled site (Agree site exact base base') bound eval eval') {p q : Arrow.Plan}
    (hpq : Arrow.Plan.Twin site bound p q) :
    Coupled (Step.Both Eq (Agree site exact base base')) (RunError.Twin site) Eq
      (Arrow.run eval p (site.leftFrame event anchor))
      (Arrow.run eval' q (site.rightFrame event anchor)) := by
  rw [Arrow.run, Arrow.run]
  refine Coupled.bind_eq Step.own_coupled fun state => ?_
  have hlength := hpq.stages.length_eq
  have hreset : Coupled (Agree site exact base base') (RunError.Twin site) (fun _ _ => True)
      (Run.resetStates p.owned) (Run.resetStates q.owned) := by
    refine Coupled.change fun s t hst => hst.reset hw (hpq.owned.imp ?_)
    rintro x y ⟨j, -, hp⟩
    exact ⟨j, hp⟩
  cases hp : p.stages[state.pointer]? with
  | none =>
    rw [getElem_none_of_forall₂ hpq.stages hp]
    exact Coupled.bind (Step.setOwn_coupled rfl) fun _ _ _ => Coupled.pure rfl
  | some c =>
    obtain ⟨d, hd, hcd⟩ := getElem_of_forall₂ hpq.stages hp
    rw [hd, hlength]
    refine Coupled.bind_eq (Step.lift_coupled (holds_coupled h hcd _ event state.anchor))
      fun held => Coupled.ite (Coupled.pure rfl) (Coupled.ite ?_ ?_)
    · exact Coupled.bind (Step.setOwn_coupled rfl) fun _ _ _ => Coupled.pure rfl
    · refine Coupled.bind (Step.setOwn_coupled rfl) fun _ _ _ => ?_
      exact Coupled.bind (Step.lift_coupled hreset) fun _ _ _ => Coupled.pure rfl

/-- One state of the monitor on both sides, and one that fits it. -/
def Monitor.Plan.SameState (q : Monitor.Plan) (a b : Monitor.State) : Prop := a = b ∧ q.Fits b

theorem runCount_coupled (h : CodeCoupled site S bound eval eval') {c d : Code}
    (hc : Code.Twin site bound c d) (times : Nat) (isStrict : Bool) (seen : Nat) :
    Coupled (Step.Both (Monitor.Plan.count d times isStrict).SameState S) (RunError.Twin site) Eq
      (Monitor.runCount eval c times isStrict seen (site.leftFrame event anchor))
      (Monitor.runCount eval' d times isStrict seen (site.rightFrame event anchor)) := by
  have hset : ∀ seen answer, Coupled (Step.Both (Monitor.Plan.count d times isStrict).SameState S)
      (RunError.Twin site) Eq (Step.setOwn (Monitor.State.count seen) >>= fun _ => pure answer)
      (Step.setOwn (Monitor.State.count seen) >>= fun _ => (pure answer : Step Monitor.State Bool)) :=
    fun _ _ => Coupled.bind (Step.setOwn_coupled ⟨rfl, trivial⟩) fun _ _ _ => Coupled.pure rfl
  refine Coupled.bind_eq (Step.lift_coupled (holds_coupled h hc _ event anchor)) fun held => ?_
  refine Coupled.ite ?_ (Coupled.ite (hset 0 true) (hset (seen + 1) false))
  exact Coupled.ite (hset 0 false) (Coupled.pure rfl)

theorem runKeep_coupled (h : CodeCoupled site S bound eval eval') {c d : Code}
    (hc : Code.Twin site bound c d) (ms : Int64) (since : Option Int64) :
    Coupled (Step.Both (Monitor.Plan.keep d ms).SameState S) (RunError.Twin site) Eq
      (Monitor.runKeep eval c ms since (site.leftFrame event anchor))
      (Monitor.runKeep eval' d ms since (site.rightFrame event anchor)) := by
  have hset : ∀ since answer, Coupled (Step.Both (Monitor.Plan.keep d ms).SameState S)
      (RunError.Twin site) Eq (Step.setOwn (Monitor.State.keep since) >>= fun _ => pure answer)
      (Step.setOwn (Monitor.State.keep since) >>= fun _ => (pure answer : Step Monitor.State Bool)) :=
    fun _ _ => Coupled.bind (Step.setOwn_coupled ⟨rfl, trivial⟩) fun _ _ _ => Coupled.pure rfl
  refine Coupled.bind_eq (Step.lift_coupled (holds_coupled h hc _ event anchor)) fun held => ?_
  exact Coupled.ite (hset none false) (Coupled.ite (hset none true) (hset _ false))

theorem runDelay_coupled (ms : Int64) (since : Option Int64) :
    Coupled (Step.Both (Monitor.Plan.delay ms).SameState S) (RunError.Twin site) Eq
      (Monitor.runDelay ms since (site.leftFrame event anchor))
      (Monitor.runDelay ms since (site.rightFrame event anchor)) := by
  have hset : ∀ since answer, Coupled (Step.Both (Monitor.Plan.delay ms).SameState S)
      (RunError.Twin site) Eq (Step.setOwn (Monitor.State.delay since) >>= fun _ => pure answer)
      (Step.setOwn (Monitor.State.delay since) >>= fun _ => (pure answer : Step Monitor.State Bool)) :=
    fun _ _ => Coupled.bind (Step.setOwn_coupled ⟨rfl, trivial⟩) fun _ _ _ => Coupled.pure rfl
  rw [Monitor.runDelay, Monitor.runDelay]
  exact Coupled.ite (hset none true) (Coupled.ite (hset _ false) (Coupled.pure rfl))

theorem runSlope_coupled (h : CodeCoupled site S bound eval eval') {c d : Code}
    (hc : Code.Twin site bound c d) (unit : Int64) (previous : Option (Float × Int64)) :
    Coupled (Step.Both (Monitor.Plan.slope d unit).SameState S) (RunError.Twin site) Eq
      (Monitor.runSlope eval c unit previous (site.leftFrame event anchor))
      (Monitor.runSlope eval' d unit previous (site.rightFrame event anchor)) := by
  have hcode := fun v : Value => holds_coupled h hc v event anchor
  rw [Monitor.runSlope, Monitor.runSlope]
  simp only [Site.leftFrame, Site.rightFrame] at hcode ⊢
  cases event.value.toNumber? with
  | none => exact Coupled.pure rfl
  | some current =>
    refine Coupled.bind (Step.setOwn_coupled ⟨rfl, trivial⟩) fun _ _ _ => ?_
    cases previous with
    | none => exact Coupled.pure rfl
    | some reading =>
      exact Coupled.ite (Coupled.pure rfl) (Step.lift_coupled (hcode _))

theorem monitor_coupled (h : CodeCoupled site S bound eval eval') {p q : Monitor.Plan}
    (hpq : Monitor.Plan.Twin site bound p q) :
    Coupled (Step.Both q.SameState S) (RunError.Twin site) Eq
      (Monitor.run eval p (site.leftFrame event anchor))
      (Monitor.run eval' q (site.rightFrame event anchor)) := by
  have hset : ∀ {state : Monitor.State}, q.Fits state → Coupled (Step.Both q.SameState S)
      (RunError.Twin site) (fun _ _ => True) (Step.setOwn state) (Step.setOwn state) :=
    fun hs => Step.setOwn_coupled ⟨rfl, hs⟩
  refine Coupled.bind Step.own_coupled fun a b hab => ?_
  obtain ⟨rfl, -⟩ := hab
  cases hpq with
  | count times isStrict hc =>
    exact Coupled.bind (hset trivial) fun _ _ _ => runCount_coupled h hc times isStrict _
  | keep ms hc => exact Coupled.bind (hset trivial) fun _ _ _ => runKeep_coupled h hc ms _
  | delay ms => exact Coupled.bind (hset trivial) fun _ _ _ => runDelay_coupled ms _
  | slope unit hc => exact Coupled.bind (hset trivial) fun _ _ _ => runSlope_coupled h hc unit _

end

end EventRules
