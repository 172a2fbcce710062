import EventRules.Proofs.Chain.Sliding
import EventRules.Proofs.Run.Coupling
import EventRules.Proofs.Run.Folding
import EventRules.Proofs.Run.Recoding

/-!
# A value filled in for the value under test

Code in which a value is written for the value under test evaluates alike when that is the value under
test. So the conditions of a rule that test the reading of an event may be filled in with the reading, in
its entry and in its fragments, and one evaluation from the beginning gives the same. For whatever a
fragment recalls then comes from the event itself: a chain retains nothing else, so that a hit rate tests
the reading too, and a slope has no time to measure, so that it tests nothing. Only the verdict of a
chain tests another value, the reduced one, and has to stay as it is.
-/

namespace EventRules
set_option autoImplicit false

open Number Routine

theorem SameOutcome.eq {ε α : Type} {r q : Except ε α} (h : SameOutcome Eq Eq r q) : r = q := by
  cases h with
  | ok h => rw [h]
  | error h => rw [h]

/-- The second code is the first one with `x` for the value under test, some parts of which may have been
calculated after that. -/
inductive Code.Filled (x : Value) : Code → Code → Prop where
  | same (c : Code) : Filled x c c
  | subject : Filled x .subject (.literal x)
  | calculated {c d : Code} {v : Value} (h : Filled x c d) (hv : d.fold? = some v) : Filled x c (.literal v)
  | binary (op : BinaryOp) {l l' r r' : Code} (hl : Filled x l l') (hr : Filled x r r') :
      Filled x (.binary op l r) (.binary op l' r')
  | not {c c' : Code} (h : Filled x c c') : Filled x (.not c) (.not c')
  | step (up : Bool) {c c' : Code} (h : Filled x c c') : Filled x (.step up c) (.step up c')
  | compare (op : CompareOp) {c c' : Code} (h : Filled x c c') : Filled x (.compare op c) (.compare op c')

/-- Code that folds does not look at the value under test. -/
theorem Code.Filled.fold {x v : Value} {c d : Code} (h : Code.Filled x c d) (hv : c.fold? = some v) :
    d.fold? = some v := by
  induction h generalizing v with
  | same c => exact hv
  | subject => cases hv
  | calculated _ hfold ih => exact hfold.symm.trans (ih hv)
  | binary op _ _ ihl ihr =>
    obtain ⟨l, r, hl, hr, hop⟩ := Code.fold_binary hv
    simp only [fold?, ihl hl, ihr hr, hop]
    rfl
  | not _ ih =>
    obtain ⟨w, hw, rfl⟩ := Option.map_eq_some_iff.mp hv
    rw [fold?, ih hw, Option.map_some]
  | step up _ ih =>
    obtain ⟨w, hw, hstep⟩ := Option.bind_eq_some_iff.mp hv
    rw [fold?, ih hw, Option.bind_some, hstep]
  | compare op _ _ => cases hv

/-- The second fragment is the first one with its conditions filled in, all but the one of a verdict. -/
structure Fragment.Filled (x : Value) (f g : Fragment) : Prop where
  name : f.name = g.name
  body : FragmentBody.Retested (Code.Filled x) f.body g.body

namespace Chain

/-- Nothing is retained or handed on but what was retained before, and the event. -/
theorem retain_subset (sampler : Option Sampler) (retained : List Event) (event : Event) (admitted : Bool) :
    (retain sampler retained event admitted).1 ⊆ retained ++ [event] ∧
      ∀ batch, (retain sampler retained event admitted).2 = some batch → batch ⊆ retained ++ [event] := by
  cases admitted with
  | false =>
    rw [retain_rejected]
    refine ⟨List.subset_append_left _ _, fun batch hbatch => ?_⟩
    rcases sampler with _ | ⟨_ | _⟩ | ⟨_ | _⟩ <;> cases hbatch <;> exact List.subset_append_left _ _
  | true =>
    rcases sampler with _ | ⟨n | ms⟩ | ⟨n | ms⟩
    · exact ⟨List.Subset.refl _, fun _ h => Option.some.inj h ▸ List.Subset.refl _⟩
    · exact ⟨List.drop_subset _ _, fun _ h => Option.some.inj h ▸ List.drop_subset _ _⟩
    · exact ⟨List.filter_subset_self _, fun _ h => Option.some.inj h ▸ List.filter_subset_self _⟩
    · simp only [retain, Bool.not_true, Bool.false_eq_true, if_false]
      split
      · exact ⟨List.Subset.refl _, fun _ h => by cases h⟩
      · exact ⟨List.drop_subset _ _, fun _ h => Option.some.inj h ▸ List.take_subset _ _⟩
    · simp only [retain, Bool.not_true, Bool.false_eq_true, if_false]
      split
      · exact ⟨List.Subset.refl _, fun _ h => by cases h⟩
      · exact ⟨List.drop_subset _ _, fun _ h => Option.some.inj h ▸ List.filter_subset_self _⟩

theorem takeFrom_subset {take : Option (Int64 × Option Int64)} {batch taken : List Event}
    (h : takeFrom take batch = some taken) : taken ⊆ batch := by
  rcases take with _ | ⟨start, stop⟩
  · exact Option.some.inj h ▸ List.Subset.refl _
  · rw [takeFrom, slice?] at h
    split at h
    · cases h
    · cases h
      exact List.Subset.trans (List.take_subset _ _) (List.drop_subset _ _)

end Chain

/-! ### What can be recalled -/

/-- What is recalled comes from the event. -/
def FragmentState.Recalls (e : Event) : FragmentState → Prop
  | .chain s => ∀ a ∈ s.retained, a.value = e.value
  | .monitor (.slope (some (_, time))) => time = e.timestamp
  | _ => True

/-- One session, in which all that is recalled comes from the event. -/
def OneSession (e : Event) (s t : Session) : Prop :=
  s = t ∧ ∀ name state, s.env.states.get? name = some state → state.Recalls e

/-- One state, which is recalled from the event. -/
def OneState {State : Type} (e : Event) (wrap : State → FragmentState) (a b : State) : Prop :=
  a = b ∧ (wrap a).Recalls e

namespace OneSession

variable {e : Event} {s t : Session}

theorem note (h : OneSession e s t) (entry : TraceEntry) :
    OneSession e { s with trace := entry :: s.trace } { t with trace := entry :: t.trace } := by
  obtain ⟨rfl, hrecalls⟩ := h
  exact ⟨rfl, hrecalls⟩

theorem remove (h : OneSession e s t) (name : String) :
    OneSession e { s with env := s.env.resetState name } { t with env := t.env.resetState name } := by
  obtain ⟨rfl, hrecalls⟩ := h
  refine ⟨rfl, fun other state hstate => ?_⟩
  simp only [Environment.resetState] at hstate
  by_cases hother : other = name
  · rw [hother, Keyed.get_remove_self] at hstate
    cases hstate
  · rw [Keyed.get_remove_of_ne _ hother] at hstate
    exact hrecalls other state hstate

theorem put (h : OneSession e s t) (name : String) {State : Type} {wrap : State → FragmentState}
    {a b : State} (hab : OneState e wrap a b) :
    OneSession e { s with env := { s.env with states := s.env.states.put name (wrap a) } }
      { t with env := { t.env with states := t.env.states.put name (wrap b) } } := by
  obtain ⟨rfl, hrecalls⟩ := h
  obtain ⟨rfl, ha⟩ := hab
  refine ⟨rfl, fun other kept hkept => ?_⟩
  by_cases hother : other = name
  · rw [hother, Keyed.get_put_self] at hkept
    cases hkept
    exact ha
  · rw [Keyed.get_put_of_ne _ hother] at hkept
    exact hrecalls other kept hkept

theorem reset (h : OneSession e s t) (owned : List String) :
    OneSession e { s with env := owned.foldl Environment.resetState s.env }
      { t with env := owned.foldl Environment.resetState t.env } := by
  induction owned generalizing s t with
  | nil => exact h
  | cons name owned ih => exact ih (h.remove name)

end OneSession

/-! ### Evaluation -/

section

variable {e : Event} {S : Session → Session → Prop} {fs gs : List Fragment} {registry : Registry}
  {α : Type}

theorem except_coupled (r : Except RunError α) :
    Coupled S Eq Eq (ofExcept r : Run α) (ofExcept r : Run α) := by
  apply Coupled.ofExcept
  cases r with
  | ok a => exact .ok rfl
  | error err => exact .error rfl

theorem setOwn_couples {State : Type} {wrap : State → FragmentState} {next : State}
    (h : (wrap next).Recalls e) :
    Coupled (Step.Both (OneState e wrap) (OneSession e)) Eq (fun _ _ => True) (Step.setOwn next)
      (Step.setOwn next) :=
  Step.setOwn_coupled ⟨rfl, h⟩

/-- A state is kept and the answer given. -/
theorem settle_couples {State : Type} {wrap : State → FragmentState} {next : State} {answer : α}
    (h : (wrap next).Recalls e) :
    Coupled (Step.Both (OneState e wrap) (OneSession e)) Eq Eq (Step.setOwn next >>= fun _ => pure answer)
      (Step.setOwn next >>= fun _ => (pure answer : Step State α)) :=
  Coupled.bind (setOwn_couples h) fun _ _ _ => Coupled.pure rfl

/-- Calls of the event among the one fragments and among the others are coupled. -/
def CallsCouple (e : Event) (fs gs : List Fragment) (registry : Registry) (S : Session → Session → Prop)
    (call call' : String → Nat → Frame → Run Bool) : Prop :=
  ∀ name index anchor, Coupled S Eq Eq (call name index ⟨e, anchor, fs, registry⟩)
    (call' name index ⟨e, anchor, gs, registry⟩)

/-- Filled code is coupled on the reading of the event, and the same code on any value. -/
structure FillsCouple (e : Event) (fs gs : List Fragment) (registry : Registry)
    (S : Session → Session → Prop) (eval eval' : Evaluator) : Prop where
  filled : ∀ {c d : Code}, Code.Filled e.value c d → ∀ anchor,
    Coupled S Eq Eq (eval c e.value ⟨e, anchor, fs, registry⟩) (eval' d e.value ⟨e, anchor, gs, registry⟩)
  same : ∀ (c : Code) v anchor,
    Coupled S Eq Eq (eval c v ⟨e, anchor, fs, registry⟩) (eval' c v ⟨e, anchor, gs, registry⟩)

/-- Operators couple if their operands do; the logical ones skip the right side on both sides or on
none. -/
theorem binary_couples {call call' : String → Nat → Frame → Run Bool} {v : Value} {frame frame' : Frame}
    (op : BinaryOp) {l l' r r' : Code}
    (hl : Coupled S Eq Eq (l.evaluate call v frame) (l'.evaluate call' v frame'))
    (hr : Coupled S Eq Eq (r.evaluate call v frame) (r'.evaluate call' v frame')) :
    Coupled S Eq Eq ((Code.binary op l r).evaluate call v frame)
      ((Code.binary op l' r').evaluate call' v frame') := by
  cases op with
  | and =>
    refine Coupled.bind_eq hl fun a => ?_
    exact Coupled.ite (Coupled.pure rfl) (Coupled.bind_eq hr fun b => Coupled.pure rfl)
  | or =>
    refine Coupled.bind_eq hl fun a => ?_
    exact Coupled.ite (Coupled.pure rfl) (Coupled.bind_eq hr fun b => Coupled.pure rfl)
  | _ => exact Coupled.bind_eq hl fun a => Coupled.bind_eq hr fun b => except_coupled _

theorem same_code_couples {call call' : String → Nat → Frame → Run Bool}
    (hcall : CallsCouple e fs gs registry S call call') (c : Code) (v : Value) (anchor : Option Int64) :
    Coupled S Eq Eq (c.evaluate call v ⟨e, anchor, fs, registry⟩)
      (c.evaluate call' v ⟨e, anchor, gs, registry⟩) := by
  induction c with
  | literal w => exact Coupled.pure rfl
  | subject => exact Coupled.pure rfl
  | binary op l r ihl ihr => exact binary_couples op ihl ihr
  | not c ih => exact Coupled.bind_eq ih fun w => Coupled.pure rfl
  | step up c ih => exact Coupled.bind_eq ih fun w => except_coupled _
  | compare op c ih => exact Coupled.bind_eq ih fun w => Coupled.pure rfl
  | call name index => exact (hcall name index anchor).map fun a b hab => congrArg Value.boolean hab
  | filter extension => exact Coupled.bind_eq (except_coupled _) fun f => Coupled.pure rfl

theorem code_couples {call call' : String → Nat → Frame → Run Bool}
    (hcall : CallsCouple e fs gs registry S call call') :
    FillsCouple e fs gs registry S (Code.evaluate call) (Code.evaluate call') := by
  refine ⟨fun {c d} h anchor => ?_, same_code_couples hcall⟩
  induction h with
  | same c => exact same_code_couples hcall c e.value anchor
  | subject => exact Coupled.pure rfl
  | @calculated c d v _ hv ih =>
    rw [evaluate_of_fold hv] at ih
    exact ih
  | binary op _ _ ihl ihr => exact binary_couples op ihl ihr
  | not _ ih => exact Coupled.bind_eq ih fun w => Coupled.pure rfl
  | step up _ ih => exact Coupled.bind_eq ih fun w => except_coupled _
  | compare op _ ih => exact Coupled.bind_eq ih fun w => Coupled.pure rfl

/-! ### Chains -/

variable {eval eval' : Evaluator} {anchor : Option Int64}

theorem FillsCouple.holds (h : FillsCouple e fs gs registry S eval eval') {c d : Code}
    (hcd : Code.Filled e.value c d) (anchor : Option Int64) :
    Coupled S Eq Eq (eval.holds c e.value ⟨e, anchor, fs, registry⟩)
      (eval'.holds d e.value ⟨e, anchor, gs, registry⟩) :=
  (h.filled hcd anchor).map fun _ _ hab => congrArg Value.asBool hab

theorem admits_couples (h : FillsCouple e fs gs registry S eval eval') {tests tests' : List Test}
    (ht : List.Forall₂ (Test.Recoded (Code.Filled e.value)) tests tests') :
    Coupled S Eq Eq (Chain.admits eval ⟨e, anchor, fs, registry⟩ tests)
      (Chain.admits eval' ⟨e, anchor, gs, registry⟩ tests') := by
  induction ht with
  | nil => exact Coupled.pure rfl
  | cons htest _ ih =>
    cases htest with
    | condition hc =>
      exact Coupled.bind_eq (h.holds hc anchor) fun passed => Coupled.ite ih (Coupled.pure rfl)
    | extension name =>
      exact Coupled.bind_eq (except_coupled _) fun f => Coupled.ite ih (Coupled.pure rfl)

theorem judge_couples (h : FillsCouple e fs gs registry S eval eval') (test : Test) (v : Value) :
    Coupled S Eq Eq (Chain.judge eval ⟨e, anchor, fs, registry⟩ test v)
      (Chain.judge eval' ⟨e, anchor, gs, registry⟩ test v) := by
  cases test with
  | condition c => exact (h.same c v anchor).map fun _ _ hab => congrArg Value.asBool hab
  | extension name => exact Coupled.bind_eq (except_coupled _) fun f => Coupled.pure rfl

theorem countHits_couples (h : FillsCouple e fs gs registry S eval eval') {c d : Code}
    (hcd : Code.Filled e.value c d) {batch : List Event} (hbatch : ∀ a ∈ batch, a.value = e.value) :
    Coupled S Eq Eq (Chain.countHits eval c ⟨e, anchor, fs, registry⟩ batch)
      (Chain.countHits eval' d ⟨e, anchor, gs, registry⟩ batch) := by
  induction batch with
  | nil => exact Coupled.pure rfl
  | cons a as ih =>
    rw [Chain.countHits, Chain.countHits, hbatch a List.mem_cons_self]
    refine Coupled.bind_eq (h.holds hcd anchor) fun hit => ?_
    exact Coupled.bind_eq (ih fun b hb => hbatch b (List.mem_cons_of_mem _ hb)) fun _ => Coupled.pure rfl

theorem aggregate_couples (h : FillsCouple e fs gs registry S eval eval') {how how' : Chain.Aggregation}
    (ha : Chain.Aggregation.Recoded (Code.Filled e.value) how how') {batch : List Event}
    (hbatch : ∀ a ∈ batch, a.value = e.value) :
    Coupled S Eq Eq (Chain.aggregate eval how batch ⟨e, anchor, fs, registry⟩)
      (Chain.aggregate eval' how' batch ⟨e, anchor, gs, registry⟩) := by
  cases ha with
  | hitRate hcd =>
    refine Coupled.ite (Coupled.pure rfl) ?_
    exact Coupled.bind_eq (countHits_couples h hcd hbatch) fun hits => Coupled.pure rfl
  | extension name => exact Coupled.bind_eq (except_coupled _) fun f => Coupled.pure rfl
  | _ => exact Coupled.pure rfl

theorem note_couples (entry : TraceEntry) :
    Coupled (OneSession e) Eq (fun _ _ => True) (Run.note entry) (Run.note entry) :=
  Coupled.change fun _ _ h => h.note entry

theorem checkTake_couples (name : String) (take : Option (Int64 × Option Int64)) :
    Coupled S Eq Eq (Chain.checkTake name take) (Chain.checkTake name take) := by
  cases take with
  | none => exact Coupled.pure rfl
  | some span =>
    obtain ⟨start, stop⟩ := span
    cases stop with
    | none => exact Coupled.pure rfl
    | some stop => exact Coupled.ite (Coupled.fail rfl) (Coupled.pure rfl)

theorem chain_couples (h : FillsCouple e fs gs registry (OneSession e) eval eval') (name : String)
    {p q : Chain.Plan} (hpq : Chain.Plan.Recoded (Code.Filled e.value) p q)
    (hverdict : p.verdict = q.verdict) :
    Coupled (Step.Both (OneState e .chain) (OneSession e)) Eq Eq
      (Chain.run eval name p ⟨e, anchor, fs, registry⟩)
      (Chain.run eval' name q ⟨e, anchor, gs, registry⟩) := by
  rw [Chain.run, Chain.run, hpq.take, hpq.sampler, hpq.clears, hverdict]
  refine Coupled.bind_eq (Step.lift_coupled (checkTake_couples name q.take)) fun _ => ?_
  refine Coupled.bind_eq (Step.lift_coupled (admits_couples h hpq.filters)) fun admitted => ?_
  refine Coupled.bind Step.own_coupled fun own _ hown => ?_
  obtain ⟨rfl, hrecalls⟩ := hown
  -- nothing but the event can have been retained, and so nothing else is handed on
  have hadded : ∀ a ∈ own.retained ++ [e], a.value = e.value := by
    intro a ha
    rcases List.mem_append.mp ha with ha | ha
    · exact hrecalls a ha
    · rw [List.mem_singleton.mp ha]
  obtain ⟨hkept, hhanded⟩ := Chain.retain_subset q.sampler own.retained e admitted
  dsimp only
  generalize Chain.retain q.sampler own.retained e admitted = answer at hkept hhanded ⊢
  obtain ⟨kept, handed⟩ := answer
  refine Coupled.bind (setOwn_couples fun a ha => hadded a (hkept ha)) fun _ _ _ => ?_
  dsimp only
  cases hbatch : handed.bind (Chain.takeFrom q.take) with
  | none => exact Coupled.pure rfl
  | some batch =>
    obtain ⟨all, hall, htaken⟩ := Option.bind_eq_some_iff.mp hbatch
    have hvalues : ∀ a ∈ batch, a.value = e.value :=
      fun a ha => hadded a (hhanded all hall (Chain.takeFrom_subset htaken ha))
    refine Coupled.bind_eq (Step.lift_coupled (aggregate_couples h hpq.aggregation hvalues)) fun v => ?_
    refine Coupled.bind_eq (Step.lift_coupled (judge_couples h q.verdict v)) fun verdict => ?_
    refine Coupled.bind (Step.lift_coupled (note_couples _)) fun _ _ _ => ?_
    refine Coupled.ite ?_ (Coupled.pure rfl)
    refine Coupled.bind Step.own_coupled fun own _ hown => ?_
    obtain ⟨rfl, -⟩ := hown
    exact settle_couples (List.forall_mem_nil _)

/-! ### Arrows and monitors -/

theorem arrow_couples (h : FillsCouple e fs gs registry (OneSession e) eval eval') {p q : Arrow.Plan}
    (hpq : Arrow.Plan.Recoded (Code.Filled e.value) p q) :
    Coupled (Step.Both (OneState e .arrow) (OneSession e)) Eq Eq
      (Arrow.run eval p ⟨e, anchor, fs, registry⟩) (Arrow.run eval' q ⟨e, anchor, gs, registry⟩) := by
  rw [Arrow.run, Arrow.run, hpq.owned]
  refine Coupled.bind Step.own_coupled fun state _ hstate => ?_
  obtain ⟨rfl, -⟩ := hstate
  have hlength := hpq.stages.length_eq
  cases hp : p.stages[state.pointer]? with
  | none =>
    rw [getElem_none_of_forall₂ hpq.stages hp]
    exact settle_couples trivial
  | some c =>
    obtain ⟨d, hd, hcd⟩ := getElem_of_forall₂ hpq.stages hp
    rw [hd, hlength]
    refine Coupled.bind_eq (Step.lift_coupled (h.holds hcd state.anchor)) fun held => ?_
    refine Coupled.ite (Coupled.pure rfl) (Coupled.ite ?_ ?_)
    · exact settle_couples trivial
    · refine Coupled.bind (setOwn_couples trivial) fun _ _ _ => ?_
      have hreset : Coupled (OneSession e) Eq (fun _ _ => True) (Run.resetStates q.owned)
          (Run.resetStates q.owned) := Coupled.change fun s t hst => hst.reset q.owned
      exact Coupled.bind (Step.lift_coupled hreset) fun _ _ _ => Coupled.pure rfl

theorem slope_couples (c d : Code) (unit : Int64) {previous : Option (Float × Int64)}
    (hprevious : (FragmentState.monitor (.slope previous)).Recalls e) :
    Coupled (Step.Both (OneState e .monitor) (OneSession e)) Eq Eq
      (Monitor.runSlope eval c unit previous ⟨e, anchor, fs, registry⟩)
      (Monitor.runSlope eval' d unit previous ⟨e, anchor, gs, registry⟩) := by
  rw [Monitor.runSlope, Monitor.runSlope]
  dsimp only
  cases e.value.toNumber? with
  | none => exact Coupled.pure rfl
  | some current =>
    refine Coupled.bind (setOwn_couples rfl) fun _ _ _ => ?_
    cases previous with
    | none => exact Coupled.pure rfl
    | some reading =>
      -- no time has elapsed, so the condition is not asked
      obtain ⟨value, time⟩ := reading
      obtain rfl : time = e.timestamp := hprevious
      have hnow : subClamped e.timestamp e.timestamp = 0 := by
        rw [subClamped, Int.sub_self]
        rfl
      simp only [hnow, if_true]
      exact Coupled.pure rfl

theorem monitor_couples (h : FillsCouple e fs gs registry (OneSession e) eval eval') {p q : Monitor.Plan}
    (hpq : Monitor.Plan.Recoded (Code.Filled e.value) p q) :
    Coupled (Step.Both (OneState e .monitor) (OneSession e)) Eq Eq
      (Monitor.run eval p ⟨e, anchor, fs, registry⟩) (Monitor.run eval' q ⟨e, anchor, gs, registry⟩) := by
  refine Coupled.bind Step.own_coupled fun own _ hown => ?_
  obtain ⟨rfl, hrecalls⟩ := hown
  cases hpq with
  | count times isStrict hcd =>
    refine Coupled.bind (setOwn_couples trivial) fun _ _ _ => ?_
    refine Coupled.bind_eq (Step.lift_coupled (h.holds hcd anchor)) fun held => ?_
    refine Coupled.ite ?_ (Coupled.ite (settle_couples trivial) (settle_couples trivial))
    exact Coupled.ite (settle_couples trivial) (Coupled.pure rfl)
  | keep ms hcd =>
    refine Coupled.bind (setOwn_couples trivial) fun _ _ _ => ?_
    refine Coupled.bind_eq (Step.lift_coupled (h.holds hcd anchor)) fun held => ?_
    refine Coupled.ite (settle_couples trivial) ?_
    exact Coupled.ite (settle_couples trivial) (settle_couples trivial)
  | delay ms =>
    refine Coupled.bind (setOwn_couples trivial) fun _ _ _ => ?_
    exact Coupled.ite (settle_couples trivial) (Coupled.ite (settle_couples trivial) (Coupled.pure rfl))
  | slope unit hcd =>
    cases own with
    | slope previous =>
      exact Coupled.bind (setOwn_couples hrecalls) fun _ _ _ => slope_couples _ _ unit hrecalls
    | _ => exact Coupled.bind (setOwn_couples trivial) fun _ _ _ => slope_couples _ _ unit trivial

/-! ### Fragments and calls -/

theorem withState_couples {State : Type} (name : String) (wrap : State → FragmentState)
    {step step' : Step State Bool}
    (hstep : Coupled (Step.Both (OneState e wrap) (OneSession e)) Eq Eq step step') {own : State}
    (hown : (wrap own).Recalls e) :
    Coupled (OneSession e) Eq Eq (withState name wrap own step) (withState name wrap own step') := by
  intro s t hst
  obtain ⟨⟨hsame, hsession⟩, houtcome⟩ := hstep (own, { s with env := s.env.resetState name })
    (own, { t with env := t.env.resetState name }) ⟨⟨rfl, hown⟩, hst.remove name⟩
  exact ⟨hsession.put name hsame, houtcome⟩

theorem fragment_couples (h : FillsCouple e fs gs registry (OneSession e) eval eval') {f g : Fragment}
    (hfg : f.Filled e.value g) :
    Coupled (OneSession e) Eq Eq (f.run eval ⟨e, anchor, fs, registry⟩)
      (g.run eval' ⟨e, anchor, gs, registry⟩) := by
  obtain ⟨name, body⟩ := f
  obtain ⟨name', body'⟩ := g
  obtain ⟨rfl, hbody, hverdict⟩ := hfg
  refine Coupled.bind (note_couples _) fun _ _ _ => ?_
  refine Coupled.bind Coupled.state fun s _ hst => ?_
  obtain ⟨rfl, hrecalls⟩ := hst
  have hown : ((s.env.states.get? name).getD body.initial).Recalls e := by
    cases hstate : s.env.states.get? name with
    | some state => exact hrecalls name state hstate
    | none =>
      cases hbody with
      | chain hpq => exact List.forall_mem_nil _
      | arrow hpq => trivial
      | monitor hpq => cases hpq <;> trivial
  rw [initial_recoded hbody] at hown
  simp only [initial_recoded hbody]
  generalize (s.env.states.get? name).getD body'.initial = own at hown ⊢
  have hother : Coupled (OneSession e) Eq Eq
      (withState name (fun _ => own) () (fail (.missingFragment name)))
      (withState name (fun _ => own) () (fail (.missingFragment name))) :=
    withState_couples name (fun _ => own) (Coupled.fail rfl) hown
  cases hbody with
  | chain hpq =>
    cases own with
    | chain own =>
      exact withState_couples name .chain (chain_couples h name hpq (hverdict _ _ rfl rfl)) hown
    | _ => exact hother
  | arrow hpq =>
    cases own with
    | arrow own => exact withState_couples name .arrow (arrow_couples h hpq) hown
    | _ => exact hother
  | monitor hpq =>
    cases own with
    | monitor own => exact withState_couples name .monitor (monitor_couples h hpq) hown
    | _ => exact hother

theorem call_couples (hfs : List.Forall₂ (Fragment.Filled e.value) fs gs) (depth : Nat) :
    CallsCouple e fs gs registry (OneSession e) (callFragment depth) (callFragment depth) := by
  induction depth with
  | zero => exact fun name index anchor => Coupled.fail rfl
  | succ depth ih =>
    intro name index anchor
    rw [callFragment, callFragment]
    cases hf : fs[index]? with
    | none =>
      simp only [getElem_none_of_forall₂ hfs hf]
      exact Coupled.fail rfl
    | some f =>
      obtain ⟨g, hg, hfg⟩ := getElem_of_forall₂ hfs hf
      simp only [hg, hfg.name]
      exact Coupled.ite (fragment_couples (code_couples ih) hfg) (Coupled.fail rfl)

/-- An evaluation from the beginning gives the same, in the same session, with the reading filled in. -/
theorem evaluate_filled (hfs : List.Forall₂ (Fragment.Filled e.value) fs gs) {c d : Code}
    (hcd : Code.Filled e.value c d) (anchor : Option Int64) {s : Session} (hs : s.env.states = .empty) :
    (evaluate c e.value ⟨e, anchor, fs, registry⟩).run s =
      (evaluate d e.value ⟨e, anchor, gs, registry⟩).run s := by
  have hnothing : OneSession e s s := by
    refine ⟨rfl, fun name state hstate => ?_⟩
    rw [hs, Keyed.get_empty] at hstate
    cases hstate
  obtain ⟨⟨hsession, -⟩, houtcome⟩ :=
    (code_couples (call_couples hfs fs.length)).filled hcd anchor s s hnothing
  rw [evaluate, evaluate, ← hfs.length_eq]
  exact Prod.ext houtcome.eq hsession

end

end EventRules
