import EventRules.Proofs.Lowering.Expressions
import EventRules.Proofs.Lowering.Tables
import EventRules.Proofs.Rule.Contract

/-!
# The order of the elements of a chain

The phases of the elements of a chain make up a word. A chain is lowered if and only if its word has the
form F* C? S? T? A V X?, over filters, `collect`, samplers, `take`, aggregations, verdicts and `clear`;
the filter that is put before another first element does not change this. The plan then holds what
the elements say, and whatever is wrong with the order is said of a chain that is not valid.
-/

namespace EventRules
set_option autoImplicit false

open Routine

/-- The errors about the order of the elements of a chain. -/
def LoweringError.IsInvalidChain : LoweringError → Prop
  | combined _ _ | misplaced _ _ | unfinishedChain _ => True
  | _ => False

namespace Lowering

/-! ### Words -/

def once (present : Bool) (p : Phase) : List Phase := if present then [p] else []

/-- The word F* C? S? T? A V X? with as many filters, and with the phases that may be left out. -/
def chainWord (filters : Nat) (collects samples takes clears : Bool) : List Phase :=
  List.replicate filters .filter ++ once collects .collect ++ once samples .sample ++
    once takes .take ++ [.aggregate, .verdict] ++ once clears .clear

def InOrder (word : List Phase) : Prop :=
  ∃ filters collects samples takes clears, word = chainWord filters collects samples takes clears

/-- Each phase may follow the one before it, the first one `p`. -/
abbrev Phase.Leads (p : Phase) (word : List Phase) : Prop :=
  List.IsChain (fun p q => p.accepts q = true) (p :: word)

namespace Phase

variable {p q : Phase} {word : List Phase}

theorem leads_cons : p.Leads (q :: word) ↔ p.accepts q = true ∧ q.Leads word := List.isChain_cons_cons

theorem verdict_behind (hv : .verdict ∈ q :: word) (hq : q ≠ .verdict) : .verdict ∈ word :=
  List.mem_of_ne_of_mem hq.symm hv

theorem leads_clear (h : Leads .clear word) : word = [] := by
  cases word with
  | nil => rfl
  | cons q word => cases (leads_cons.mp h).1

theorem leads_verdict (h : Leads .verdict word) : ∃ clears, word = once clears .clear := by
  cases word with
  | nil => exact ⟨false, rfl⟩
  | cons q word =>
    obtain ⟨hq, hword⟩ := leads_cons.mp h
    obtain rfl : q = .clear := by simpa [accepts] using hq
    rw [leads_clear hword]
    exact ⟨true, rfl⟩

theorem leads_aggregate (h : Leads .aggregate word) (hv : .verdict ∈ word) :
    ∃ clears, word = .verdict :: once clears .clear := by
  cases word with
  | nil => cases hv
  | cons q word =>
    obtain ⟨hq, hword⟩ := leads_cons.mp h
    obtain rfl : q = .verdict := by simpa [accepts] using hq
    obtain ⟨clears, rfl⟩ := leads_verdict hword
    exact ⟨clears, rfl⟩

/-- An aggregation, and what it leads to. -/
theorem leads_from_aggregate (h : Leads .aggregate word) (hv : .verdict ∈ Phase.aggregate :: word) :
    ∃ clears, .aggregate :: word = chainWord 0 false false false clears := by
  obtain ⟨clears, rfl⟩ := leads_aggregate h (verdict_behind hv nofun)
  exact ⟨clears, rfl⟩

theorem leads_take (h : Leads .take word) (hv : .verdict ∈ word) :
    ∃ clears, word = chainWord 0 false false false clears := by
  cases word with
  | nil => cases hv
  | cons q word =>
    obtain ⟨hq, hword⟩ := leads_cons.mp h
    obtain rfl : q = .aggregate := by simpa [accepts] using hq
    exact leads_from_aggregate hword hv

theorem leads_sample (h : Leads .sample word) (hv : .verdict ∈ word) :
    ∃ takes clears, word = chainWord 0 false false takes clears := by
  cases word with
  | nil => cases hv
  | cons q word =>
    obtain ⟨hq, hword⟩ := leads_cons.mp h
    obtain rfl | rfl : q = .take ∨ q = .aggregate := by simpa [accepts] using hq
    · obtain ⟨clears, rfl⟩ := leads_take hword (verdict_behind hv nofun)
      exact ⟨true, clears, rfl⟩
    · exact ⟨false, leads_from_aggregate hword hv⟩

theorem leads_collect (h : Leads .collect word) (hv : .verdict ∈ word) :
    ∃ samples takes clears, word = chainWord 0 false samples takes clears := by
  cases word with
  | nil => cases hv
  | cons q word =>
    obtain ⟨hq, hword⟩ := leads_cons.mp h
    obtain rfl | rfl | rfl : q = .sample ∨ q = .take ∨ q = .aggregate := by simpa [accepts] using hq
    · obtain ⟨takes, clears, rfl⟩ := leads_sample hword (verdict_behind hv nofun)
      exact ⟨true, takes, clears, rfl⟩
    · obtain ⟨clears, rfl⟩ := leads_take hword (verdict_behind hv nofun)
      exact ⟨false, true, clears, rfl⟩
    · exact ⟨false, false, leads_from_aggregate hword hv⟩

/-- Filters lead to more filters or to what `collect` leads to, with or without `collect`. -/
theorem leads_filter (h : Leads .filter word) (hv : .verdict ∈ word) : InOrder word := by
  induction word with
  | nil => cases hv
  | cons q word ih =>
    obtain ⟨hq, hword⟩ := leads_cons.mp h
    obtain rfl | rfl | rfl | rfl | rfl :
        q = .filter ∨ q = .collect ∨ q = .sample ∨ q = .take ∨ q = .aggregate := by
      simpa [accepts] using hq
    · obtain ⟨filters, collects, samples, takes, clears, rfl⟩ := ih hword (verdict_behind hv nofun)
      exact ⟨filters + 1, collects, samples, takes, clears, rfl⟩
    · obtain ⟨samples, takes, clears, rfl⟩ := leads_collect hword (verdict_behind hv nofun)
      exact ⟨0, true, samples, takes, clears, rfl⟩
    · obtain ⟨takes, clears, rfl⟩ := leads_sample hword (verdict_behind hv nofun)
      exact ⟨0, false, true, takes, clears, rfl⟩
    · obtain ⟨clears, rfl⟩ := leads_take hword (verdict_behind hv nofun)
      exact ⟨0, false, false, true, clears, rfl⟩
    · exact ⟨0, false, false, false, leads_from_aggregate hword hv⟩

/-- The automaton of phases accepts the words in order and no others. -/
theorem inOrder_iff : InOrder word ↔ Leads .filter word ∧ .verdict ∈ word := by
  constructor
  · rintro ⟨filters, collects, samples, takes, clears, rfl⟩
    constructor
    · induction filters with
      | zero => cases collects <;> cases samples <;> cases takes <;> cases clears <;> decide
      | succ filters ih => exact leads_cons.mpr ⟨rfl, ih⟩
    · simp [chainWord]
  · rintro ⟨hleads, hv⟩
    exact leads_filter hleads hv

end Phase

/-! ### Elements -/

def extensionPhase : ExtensionKind → Phase
  | .filter => .filter
  | .calculator => .aggregate
  | .meet => .verdict

/-- The phase of the elements that are called by a name. -/
def phaseOf? (registry : Registry) (name : String) : Option Phase :=
  match name with
  | "filter" => some .filter
  | "collect" => some .collect
  | "limit" => some .sample
  | "window" => some .sample
  | "take" => some .take
  | "sum" => some .aggregate
  | "avg" => some .aggregate
  | "min" => some .aggregate
  | "max" => some .aggregate
  | "stddev" => some .aggregate
  | "count" => some .aggregate
  | "hitRate" => some .aggregate
  | "meet" => some .verdict
  | "clear" => some .clear
  | name => (registry.kind? name).map extensionPhase

variable {scope : Scope} {c : OperandCall}

/-- Elements of the phase `p`. -/
abbrev Makes (p : Phase) (m : Lower Element) : Prop :=
  m.Meets (fun _ => True) (fun _ => True) (fun e => e.phase = p)

theorem makes_plain (c : OperandCall) (e : Element) : Makes e.phase (plain c e) := by
  unfold plain
  split
  · exact .pure rfl
  · exact .fail trivial

theorem makes_condition (c : OperandCall) {wrap : Code → Element} {p : Phase}
    (h : ∀ code, (wrap code).phase = p) : Makes p (conditionElement c wrap) := by
  unfold conditionElement
  split
  · exact (Meets.anything _).bind fun code _ => .pure (h code)
  · exact .fail trivial

theorem makes_filter (scope : Scope) (c : OperandCall) : Makes .filter (filterElement scope c) := by
  unfold filterElement
  split
  · exact .pure rfl
  · split
    · exact .pure rfl
    · exact (Meets.anything _).bind fun code _ => .pure rfl
  · exact .fail trivial

theorem makes_sample (scope : Scope) (c : OperandCall) (wrap : Chain.Extent → Chain.Sampler) :
    Makes .sample (sampleElement scope c wrap) := by
  unfold sampleElement
  split
  · exact (Meets.anything _).bind fun extent _ => .pure rfl
  · exact .fail trivial

theorem makes_take (scope : Scope) (c : OperandCall) : Makes .take (takeElement scope c) := by
  unfold takeElement
  split
  · exact (Meets.anything _).bind fun start _ => .pure rfl
  · apply (Meets.anything _).bind
    intro start _
    exact (Meets.anything _).bind fun stop _ => .pure rfl
  · exact .fail trivial

theorem makes_extension (scope : Scope) (c : OperandCall) :
    Meets (fun _ => True) (fun _ => True)
      (fun e => (scope.registry.kind? c.name.text).map extensionPhase = some e.phase)
      (extensionElement scope c) := by
  unfold extensionElement
  dsimp only
  cases scope.registry.kind? c.name.text with
  | none => exact .fail trivial
  | some kind =>
    cases kind with
    | filter => exact (makes_plain c _).weaken fun e he => congrArg some he.symm
    | calculator => exact (makes_plain c _).weaken fun e he => congrArg some he.symm
    | meet => exact (makes_plain c _).weaken fun e he => congrArg some he.symm

/-- The name of a call says of which phase its element is. -/
theorem element_phase (scope : Scope) (c : OperandCall) :
    Meets (fun _ => True) (fun _ => True) (fun e => phaseOf? scope.registry c.name.text = some e.phase)
      (element scope c) := by
  have hmakes : ∀ {p : Phase} {m : Lower Element}, Makes p m →
      phaseOf? scope.registry c.name.text = some p →
      Meets (fun _ => True) (fun _ => True) (fun e => phaseOf? scope.registry c.name.text = some e.phase)
        m := fun hm hp => hm.weaken fun e he => hp.trans (congrArg some he.symm)
  unfold element
  cases c.strict with
  | true => exact .fail trivial
  | false =>
    simp only [Bool.false_eq_true, if_false]
    split
    · next hname => exact hmakes (makes_filter scope c) (by rw [hname]; rfl)
    · next hname => exact hmakes (makes_plain c _) (by rw [hname]; rfl)
    · next hname => exact hmakes (makes_sample scope c _) (by rw [hname]; rfl)
    · next hname => exact hmakes (makes_sample scope c _) (by rw [hname]; rfl)
    · next hname => exact hmakes (makes_take scope c) (by rw [hname]; rfl)
    · next hname => exact hmakes (makes_plain c _) (by rw [hname]; rfl)
    · next hname => exact hmakes (makes_plain c _) (by rw [hname]; rfl)
    · next hname => exact hmakes (makes_plain c _) (by rw [hname]; rfl)
    · next hname => exact hmakes (makes_plain c _) (by rw [hname]; rfl)
    · next hname => exact hmakes (makes_plain c _) (by rw [hname]; rfl)
    · next hname => exact hmakes (makes_plain c _) (by rw [hname]; rfl)
    · next hname => exact hmakes (makes_condition c fun _ => rfl) (by rw [hname]; rfl)
    · next hname => exact hmakes (makes_condition c fun _ => rfl) (by rw [hname]; rfl)
    · next hname => exact hmakes (makes_plain c _) (by rw [hname]; rfl)
    · have hother : phaseOf? scope.registry c.name.text =
          (scope.registry.kind? c.name.text).map extensionPhase := by
        unfold phaseOf?
        split
        any_goals contradiction
        rfl
      rw [hother]
      exact makes_extension scope c

theorem element_phase_ne_start (e : Element) : e.phase ≠ .start := by
  cases e <;> exact nofun

/-- An element that is lowered somewhere is lowered everywhere. -/
theorem lowered_everywhere {scope : Scope} {call : Call Expr} {o : Output}
    (h : ∃ o e u, (element scope ⟨call.name, call.strict, operands scope call.args⟩).run o = (.ok e, u)) :
    ∃ e u, (element scope ⟨call.name, call.strict, operands scope call.args⟩).run o = (.ok e, u) := by
  have halike : ∀ d : Doubling, scope.registry = d.registry → d.calculates →
      ArgumentsAlike d ⟨call.name, call.strict, operands scope call.args⟩ := by
    intro d hr hc a ha
    rw [operands_eq_map] at ha
    obtain ⟨e, -, rfl⟩ := List.mem_map.mp ha
    exact lower_alike d e scope hr fun _ => hc
  have hstep : ∀ o : Output, InStep ⟨scope.registry, True, o.fragments.length⟩ o .empty := by
    intro o
    refine ⟨(Nat.add_zero _).symm, ?_⟩
    intro j g hg
    cases hg
  have hsame : ∀ o : Output, SameOutcome Eq (fun e e' : Element => True)
      ((element scope ⟨call.name, call.strict, operands scope call.args⟩).run o).1
      ((element scope ⟨call.name, call.strict, operands scope call.args⟩).run .empty).1 := by
    intro o
    exact (element_alike rfl (halike _ rfl trivial) o .empty (hstep o)).outcome.imp fun _ _ _ => trivial
  obtain ⟨o', e', u', hrun⟩ := h
  have hthere := hsame o'
  have hhere := hsame o
  rw [hrun] at hthere
  cases hempty : (element scope ⟨call.name, call.strict, operands scope call.args⟩).run .empty with
  | mk r v =>
    rw [hempty] at hthere hhere
    cases hthere with
    | ok _ =>
      cases hown : (element scope ⟨call.name, call.strict, operands scope call.args⟩).run o with
      | mk r' u =>
        rw [hown] at hhere
        cases hhere with
        | ok _ => exact ⟨_, _, rfl⟩

/-- The elements of calls, lowered one after another. A first one that is neither a filter nor `collect`
is warned of. -/
def elements (scope : Scope) (first : Bool) : List OperandCall → Lower (List Element)
  | [] => return []
  | c :: cs => do
    let e ← element scope c
    if first && !Phase.start.accepts e.phase then warn c.name.text
    let es ← elements scope false cs
    return e :: es

/-- The output after the warning, if there is one. -/
def warnedIf (b : Bool) (operator : String) (o : Output) : Output :=
  if b then ((warn operator).run o).2 else o

theorem run_warned {α : Type} (b : Bool) (operator : String) (k : Lower α) (o : Output) :
    (if b then warn operator >>= fun _ => k else k).run o = k.run (warnedIf b operator o) := by
  cases b <;> rfl

variable {cs : List OperandCall} {d : Draft} {e : Element} {es : List Element} {o t u : Output}

theorem elements_cons {first : Bool} (h : (elements scope first (c :: cs)).run o = (.ok es, t)) :
    ∃ e es' u, es = e :: es' ∧ (element scope c).run o = (.ok e, u) ∧
      (elements scope false cs).run (warnedIf (first && !Phase.start.accepts e.phase) c.name.text u) =
        (.ok es', t) := by
  unfold elements at h
  obtain ⟨e, u, he, h⟩ := bind_ok h
  dsimp only at h
  rw [run_warned] at h
  obtain ⟨es', v, hes, h⟩ := bind_ok h
  cases h
  exact ⟨e, es', u, rfl, he, hes⟩

/-- Calls that can be lowered one by one can be lowered one after another. -/
theorem elements_run (h : ∀ c ∈ cs, ∀ o, ∃ e u, (element scope c).run o = (.ok e, u)) (first : Bool)
    (o : Output) :
    ∃ es t, (elements scope first cs).run o = (.ok es, t) ∧
      cs.map (fun c => phaseOf? scope.registry c.name.text) = (es.map Element.phase).map some := by
  induction cs generalizing first o with
  | nil => exact ⟨[], o, rfl, rfl⟩
  | cons c cs ih =>
    obtain ⟨e, u, he⟩ := h c List.mem_cons_self o
    obtain ⟨es, t, hes, hphases⟩ := ih (fun c' hc' => h c' (List.mem_cons_of_mem _ hc')) false
      (warnedIf (first && !Phase.start.accepts e.phase) c.name.text u)
    have hphase : phaseOf? scope.registry c.name.text = some e.phase :=
      (element_phase scope c o trivial).2.answer_of (congrArg Prod.fst he)
    refine ⟨e :: es, t, ?_, ?_⟩
    · unfold elements
      rw [run_bind_ok he]
      dsimp only
      rw [run_warned, run_bind_ok hes]
      rfl
    · rw [List.map_cons, List.map_cons, List.map_cons, hphase, hphases]

/-! ### Drafts -/

/-- The phase that the next element stands behind; a filter is put before the first one. -/
def Draft.entry (d : Draft) : Phase := if d.phase = .start then .filter else d.phase

/-- The draft with an element that it has accepted. -/
def Draft.next (d : Draft) (name : Token) (e : Element) : Draft :=
  { d.record e with phase := e.phase, last := some name }

/-- With a sampler recorded no other one is accepted. -/
def Draft.Steady (d : Draft) : Prop := d.sampler ≠ none → d.entry.accepts .sample = false

theorem Phase.sampled_stays {p q : Phase} (hp : p ≠ .start) (h : p.accepts .sample = false)
    (hq : p.accepts q = true) : q.accepts .sample = false := by
  revert hp h hq
  cases p <;> cases q <;> decide

theorem entry_ne_start (d : Draft) : d.entry ≠ .start := by
  unfold Draft.entry
  split
  · exact nofun
  · assumption

theorem next_begun (d : Draft) (name : Token) (e : Element) :
    ((d.next name e).phase == Phase.start) = false :=
  beq_eq_false_iff_ne.mpr (element_phase_ne_start e)

theorem next_entry (d : Draft) (name : Token) (e : Element) : (d.next name e).entry = e.phase :=
  if_neg (element_phase_ne_start e)

theorem entry_accepts (d : Draft) (e : Element) :
    (if d.lacksFilter e then Phase.filter else d.phase).accepts e.phase = d.entry.accepts e.phase := by
  unfold Draft.lacksFilter Draft.entry
  cases d.phase <;> cases e.phase <;> rfl

theorem push_accepted (hd : d.Steady) (name : Token) (h : d.entry.accepts e.phase = true) :
    d.push name e = .ok (d.next name e) := by
  have hbefore : d.samplerBefore e = none := by
    unfold Draft.samplerBefore
    split
    · next hsample =>
      by_contra hne
      rw [hsample, hd hne] at h
      cases h
    · rfl
  unfold Draft.push
  rw [hbefore]
  dsimp only
  rw [entry_accepts, h, if_pos rfl, Draft.next]

theorem push_refused (name : Token) (h : d.entry.accepts e.phase = false) :
    ∃ error, d.push name e = .error error ∧ error.IsInvalidChain := by
  unfold Draft.push
  split
  · exact ⟨_, rfl, trivial⟩
  · dsimp only
    rw [entry_accepts, h]
    exact ⟨_, rfl, trivial⟩

theorem Draft.Steady.pushed (hd : d.Steady) (name : Token) (h : d.entry.accepts e.phase = true) :
    (d.next name e).Steady := by
  intro hsampler
  rw [next_entry]
  cases e with
  | sample sampler => rfl
  | filter test => exact Phase.sampled_stays (entry_ne_start d) (hd hsampler) h
  | collect => exact Phase.sampled_stays (entry_ne_start d) (hd hsampler) h
  | take start stop => exact Phase.sampled_stays (entry_ne_start d) (hd hsampler) h
  | aggregate aggregation => exact Phase.sampled_stays (entry_ne_start d) (hd hsampler) h
  | verdict test => exact Phase.sampled_stays (entry_ne_start d) (hd hsampler) h
  | clear => exact Phase.sampled_stays (entry_ne_start d) (hd hsampler) h

theorem record_elsewhere (es : List Element) (d : Draft) (p : Phase) (last : Option Token) :
    es.foldl Draft.record { d with phase := p, last } =
      { es.foldl Draft.record d with phase := p, last } := by
  induction es generalizing d with
  | nil => rfl
  | cons e es ih =>
    have hrecord : Draft.record { d with phase := p, last } e = { d.record e with phase := p, last } := by
      cases e <;> rfl
    rw [List.foldl_cons, hrecord, ih, List.foldl_cons]

/-! ### Pipelines -/

theorem pipeline_cons (h : (element scope c).run o = (.ok e, u)) (d : Draft) :
    (pipeline scope d (c :: cs)).run o =
      (ofExcept (d.push c.name e) >>= fun d => pipeline scope d cs).run
        (warnedIf (d.phase == .start && !Phase.start.accepts e.phase) c.name.text u) := by
  have hlacks : d.lacksFilter e = (d.phase == .start && !Phase.start.accepts e.phase) := by
    unfold Draft.lacksFilter
    cases d.phase <;> rfl
  rw [pipeline, run_bind_ok h, ← hlacks]
  exact run_warned _ _ _ u

/-- Elements in phases that lead on are all recorded. -/
theorem pipeline_leads (hd : d.Steady)
    (hrun : (elements scope (d.phase == .start) cs).run o = (.ok es, t))
    (h : d.entry.Leads (es.map Element.phase)) :
    ∃ p last, (pipeline scope d cs).run o =
      (.ok { es.foldl Draft.record d with phase := p, last }, t) := by
  induction cs generalizing d es o with
  | nil =>
    cases hrun
    exact ⟨d.phase, d.last, rfl⟩
  | cons c cs ih =>
    obtain ⟨e, es, u, rfl, he, hes⟩ := elements_cons hrun
    obtain ⟨haccepts, hleads⟩ := Phase.leads_cons.mp h
    rw [← next_begun d c.name e] at hes
    rw [← next_entry d c.name e] at hleads
    obtain ⟨p, last, hpipeline⟩ := ih (hd.pushed c.name haccepts) hes hleads
    rw [Draft.next, record_elsewhere] at hpipeline
    refine ⟨p, last, ?_⟩
    rw [pipeline_cons he, push_accepted hd c.name haccepts]
    exact hpipeline

/-- At the first phase that may not follow the pipeline is refused. -/
theorem pipeline_strays (hd : d.Steady)
    (hrun : (elements scope (d.phase == .start) cs).run o = (.ok es, t))
    (h : ¬ d.entry.Leads (es.map Element.phase)) :
    ∃ error u, (pipeline scope d cs).run o = (.error error, u) ∧ error.IsInvalidChain := by
  induction cs generalizing d es o with
  | nil =>
    cases hrun
    exact absurd (.singleton _) h
  | cons c cs ih =>
    obtain ⟨e, es, u, rfl, he, hes⟩ := elements_cons hrun
    rw [pipeline_cons he]
    cases haccepts : d.entry.accepts e.phase with
    | false =>
      obtain ⟨error, hpush, herror⟩ := push_refused c.name haccepts
      rw [hpush]
      exact ⟨error, _, rfl, herror⟩
    | true =>
      rw [← next_begun d c.name e] at hes
      rw [push_accepted hd c.name haccepts]
      apply ih (hd.pushed c.name haccepts) hes
      rw [next_entry]
      intro hleads
      exact h (Phase.leads_cons.mpr ⟨haccepts, hleads⟩)

/-! ### Plans -/

/-- The plan holds what the elements say: they are filters, `collect`, a sampler, `take`, an aggregation,
a verdict and `clear`, as far as the plan has them, and its filters are those with a condition. -/
def PlanOf (plan : Chain.Plan) (es : List Element) : Prop :=
  ∃ (filters : List (Option Test)) (collects : Bool), plan.filters = filters.filterMap id ∧
    es = filters.map .filter ++ (if collects then [.collect] else []) ++
      plan.sampler.toList.map .sample ++ plan.take.toList.map (fun t => .take t.1 t.2) ++
      [.aggregate plan.aggregation, .verdict plan.verdict] ++ (if plan.clears then [.clear] else [])

theorem record_filters (filters : List (Option Test)) (d : Draft) :
    (filters.map Element.filter).foldl Draft.record d =
      { d with filters := d.filters ++ filters.filterMap id } := by
  induction filters generalizing d with
  | nil => simp
  | cons test filters ih =>
    rw [List.map_cons, List.foldl_cons, ih]
    cases test with
    | none => simp [Draft.record]
    | some test => simp [Draft.record]

theorem PlanOf.recorded {plan : Chain.Plan} (h : PlanOf plan es) :
    (es.foldl Draft.record .empty).plan? = some plan := by
  obtain ⟨filters, sampler, take, aggregation, verdict, clears⟩ := plan
  obtain ⟨tests, collects, rfl, rfl⟩ := h
  simp only [List.foldl_append, record_filters]
  cases collects <;> cases sampler <;> cases take <;> cases clears <;> rfl

theorem record_no_verdict (h : ∀ e ∈ es, e.phase ≠ .verdict) :
    (es.foldl Draft.record d).verdict = d.verdict := by
  induction es generalizing d with
  | nil => rfl
  | cons e es ih =>
    obtain ⟨he, hes⟩ := List.forall_mem_cons.mp h
    rw [List.foldl_cons, ih hes]
    cases e with
    | verdict test => exact absurd rfl he
    | filter | collect | sample | take | aggregate | clear => rfl

theorem filters_of_phases {n : Nat} (h : es.map Element.phase = List.replicate n .filter) :
    ∃ filters : List (Option Test), es = filters.map .filter := by
  induction es generalizing n with
  | nil => exact ⟨[], rfl⟩
  | cons e es ih =>
    cases n with
    | zero => cases h
    | succ n =>
      obtain ⟨he, hes⟩ := List.cons.inj h
      obtain ⟨filters, rfl⟩ := ih hes
      cases e with
      | filter test => exact ⟨test :: filters, rfl⟩
      | collect | sample | take | aggregate | verdict | clear => cases he

/-- A phase with one element only. -/
theorem constant_of_phases {present : Bool} {p : Phase} {e₀ : Element} (hp : ∀ e, e.phase = p → e = e₀)
    (h : es.map Element.phase = once present p) : es = if present then [e₀] else [] := by
  cases present with
  | false => exact List.map_eq_nil_iff.mp h
  | true =>
    obtain ⟨e, rfl, he⟩ := List.map_eq_singleton_iff.mp h
    rw [hp e he]
    rfl

/-- A phase whose elements hold a value. -/
theorem option_of_phases {α : Type} {present : Bool} {p : Phase} {wrap : α → Element}
    (hp : ∀ e, e.phase = p → ∃ a, e = wrap a) (h : es.map Element.phase = once present p) :
    ∃ a? : Option α, es = a?.toList.map wrap := by
  cases present with
  | false => exact ⟨none, List.map_eq_nil_iff.mp h⟩
  | true =>
    obtain ⟨e, rfl, he⟩ := List.map_eq_singleton_iff.mp h
    obtain ⟨a, rfl⟩ := hp e he
    exact ⟨some a, rfl⟩

/-- Elements in order make up a plan. -/
theorem planOf_inOrder (h : InOrder (es.map Element.phase)) : ∃ plan, PlanOf plan es := by
  obtain ⟨n, collects, samples, takes, clears, h⟩ := h
  obtain ⟨es, last, rfl, h, hlast⟩ := List.map_eq_append_iff.mp h
  obtain ⟨es, judged, rfl, h, hjudged⟩ := List.map_eq_append_iff.mp h
  obtain ⟨es, taken, rfl, h, htaken⟩ := List.map_eq_append_iff.mp h
  obtain ⟨es, sampled, rfl, h, hsampled⟩ := List.map_eq_append_iff.mp h
  obtain ⟨es, collected, rfl, hfilters, hcollected⟩ := List.map_eq_append_iff.mp h
  obtain ⟨filters, rfl⟩ := filters_of_phases hfilters
  have hcollect : ∀ e : Element, e.phase = .collect → e = .collect := by
    intro e he
    cases e <;> first | rfl | cases he
  have hclear : ∀ e : Element, e.phase = .clear → e = .clear := by
    intro e he
    cases e <;> first | rfl | cases he
  have hsample : ∀ e : Element, e.phase = .sample → ∃ sampler, e = .sample sampler := by
    intro e he
    cases e <;> first | exact ⟨_, rfl⟩ | cases he
  have htake : ∀ e : Element, e.phase = .take → ∃ t : Int64 × Option Int64, e = .take t.1 t.2 := by
    intro e he
    cases e <;> first | exact ⟨(_, _), rfl⟩ | cases he
  obtain rfl := constant_of_phases hcollect hcollected
  obtain rfl := constant_of_phases hclear hlast
  obtain ⟨sampler, rfl⟩ := option_of_phases hsample hsampled
  obtain ⟨take, rfl⟩ := option_of_phases htake htaken
  obtain ⟨a, rest, rfl, ha, hrest⟩ := List.map_eq_cons_iff.mp hjudged
  obtain ⟨v, rfl, hv⟩ := List.map_eq_singleton_iff.mp hrest
  obtain ⟨aggregation, rfl⟩ : ∃ aggregation, a = .aggregate aggregation := by
    cases a <;> first | exact ⟨_, rfl⟩ | cases ha
  obtain ⟨verdict, rfl⟩ : ∃ verdict, v = .verdict verdict := by
    cases v <;> first | exact ⟨_, rfl⟩ | cases hv
  exact ⟨⟨filters.filterMap id, sampler, take, aggregation, verdict, clears⟩, filters, collects, rfl, rfl⟩

/-! ### Chains -/

theorem empty_steady : Draft.Steady .empty := fun h => absurd rfl h

/-- The plan of a chain whose elements are in order, and otherwise an error about the order. -/
theorem chainPlan_run {calls : List OperandCall}
    (hrun : (elements scope true calls).run o = (.ok es, t)) :
    (InOrder (es.map Element.phase) ∧ ∃ plan, PlanOf plan es ∧
      (chainPlan scope calls).run o = (.ok plan, t)) ∨
    (¬ InOrder (es.map Element.phase) ∧ ∃ error u, (chainPlan scope calls).run o = (.error error, u) ∧
      error.IsInvalidChain) := by
  unfold chainPlan
  by_cases hleads : Phase.Leads .filter (es.map Element.phase)
  · obtain ⟨p, last, hpipeline⟩ := pipeline_leads empty_steady hrun hleads
    rw [run_bind_ok hpipeline]
    by_cases hverdict : .verdict ∈ es.map Element.phase
    · have horder : InOrder (es.map Element.phase) := Phase.inOrder_iff.mpr ⟨hleads, hverdict⟩
      obtain ⟨plan, hplan⟩ := planOf_inOrder horder
      have hrecorded := hplan.recorded
      refine .inl ⟨horder, plan, hplan, ?_⟩
      rw [show Draft.plan? { es.foldl Draft.record .empty with phase := p, last } = some plan from
        hrecorded]
      rfl
    · have hnone : (es.foldl Draft.record .empty).verdict = none := by
        apply record_no_verdict
        intro e he hphase
        exact hverdict (List.mem_map.mpr ⟨e, he, hphase⟩)
      refine .inr ⟨fun horder => hverdict (Phase.inOrder_iff.mp horder).2, ?_⟩
      have hplan : Draft.plan? { es.foldl Draft.record .empty with phase := p, last } = none := by
        unfold Draft.plan?
        dsimp only
        rw [hnone]
        cases (es.foldl Draft.record .empty).aggregation <;> rfl
      rw [hplan]
      exact ⟨_, _, rfl, trivial⟩
  · obtain ⟨error, u, hpipeline, herror⟩ := pipeline_strays empty_steady hrun hleads
    refine .inr ⟨fun horder => hleads (Phase.inOrder_iff.mp horder).1, error, u, ?_, herror⟩
    rw [run_bind_error hpipeline]

/-- The output in which the elements of a chain are lowered. -/
def Output.begun (o : Output) : Output :=
  { o with issued := o.issued + 1, pendingChain := some s!"chain_{o.issued + 1}" }

theorem chain_run (scope : Scope) (calls : List OperandCall) (o : Output) :
    (chain scope calls).run o =
      match (chainPlan scope calls).run o.begun with
      | (.ok plan, t) =>
        (.ok (.call s!"chain_{o.issued + 1}" t.fragments.length),
          { t with
            pendingChain := o.pendingChain
            fragments := t.fragments ++ [⟨s!"chain_{o.issued + 1}", .chain plan⟩] })
      | (.error error, t) => (.error error, { t with pendingChain := o.pendingChain }) := by
  have hwithin : ∀ o' : Output, (withinChain s!"chain_{o.issued + 1}" (chainPlan scope calls)).run o' =
      (((chainPlan scope calls).run { o' with pendingChain := some s!"chain_{o.issued + 1}" }).1,
        { ((chainPlan scope calls).run { o' with pendingChain := some s!"chain_{o.issued + 1}" }).2 with
          pendingChain := o'.pendingChain }) := fun _ => rfl
  have hdraw : (drawName "chain").run o =
      (.ok s!"chain_{o.issued + 1}", { o with issued := o.issued + 1 }) := rfl
  unfold chain
  rw [run_bind_ok hdraw, run_bind, hwithin]
  change _ = match (chainPlan scope calls).run o.begun with
    | (.ok plan, t) => _
    | (.error error, t) => _
  cases hplan : (chainPlan scope calls).run o.begun with
  | mk r t =>
    rw [show ({ ({ o with issued := o.issued + 1 } : Output) with
      pendingChain := some s!"chain_{o.issued + 1}" } : Output) = o.begun from rfl, hplan]
    cases r with
    | ok plan => rfl
    | error error => rfl

/-- Calls that can be lowered one by one make up a chain if and only if their phases are in order; its
plan holds what they were lowered to, one after another behind the name of the chain. -/
theorem chain_lowered_inOrder (scope : Scope) (calls : List (Call Expr))
    (hvalid : ∀ c ∈ operandCalls scope calls, ∃ o e u, (element scope c).run o = (.ok e, u)) (o : Output) :
    ∃ es t, (elements scope true (operandCalls scope calls)).run o.begun = (.ok es, t) ∧
      calls.map (fun c => phaseOf? scope.registry c.name.text) = (es.map Element.phase).map some ∧
      ((∃ code u, (chain scope (operandCalls scope calls)).run o = (.ok code, u)) ↔
        InOrder (es.map Element.phase)) ∧
      (∀ code u, (chain scope (operandCalls scope calls)).run o = (.ok code, u) →
        ∃ plan, PlanOf plan es ∧ code = .call s!"chain_{o.issued + 1}" t.fragments.length ∧
          u = { t with
            pendingChain := o.pendingChain
            fragments := t.fragments ++ [⟨s!"chain_{o.issued + 1}", .chain plan⟩] }) ∧
      ∀ error u, (chain scope (operandCalls scope calls)).run o = (.error error, u) →
        error.IsInvalidChain := by
  have hnames : (operandCalls scope calls).map (fun c => phaseOf? scope.registry c.name.text) =
      calls.map fun c => phaseOf? scope.registry c.name.text := by
    rw [operandCalls_eq_map, List.map_map]
    rfl
  have heverywhere : ∀ c ∈ operandCalls scope calls, ∀ o, ∃ e u, (element scope c).run o = (.ok e, u) := by
    intro c hc o
    have hlowered := hvalid c hc
    rw [operandCalls_eq_map] at hc
    obtain ⟨call, -, rfl⟩ := List.mem_map.mp hc
    rw [← operands_eq_map] at hlowered ⊢
    exact lowered_everywhere hlowered
  obtain ⟨es, t, hes, hphases⟩ := elements_run heverywhere true o.begun
  rw [hnames] at hphases
  refine ⟨es, t, hes, hphases, ?_⟩
  rw [chain_run]
  obtain ⟨horder, plan, hplan, hrun⟩ | ⟨horder, error, u, hrun, herror⟩ := chainPlan_run hes
  · rw [hrun]
    refine ⟨⟨fun _ => horder, fun _ => ⟨_, _, rfl⟩⟩, ?_, ?_⟩
    · intro code u h
      cases h
      exact ⟨plan, hplan, rfl, rfl⟩
    · intro error u h
      cases h
  · rw [hrun]
    refine ⟨⟨?_, fun h => absurd h horder⟩, ?_, ?_⟩
    · rintro ⟨code, u, h⟩
      cases h
    · intro code u h
      cases h
    · intro error u h
      cases h
      exact herror

/-- The calls of `limit(3).sum().meet(>3)`. -/
def limitedSum : List (Call Expr) :=
  [⟨⟨.name, "limit", ⟨0, 1, 1⟩⟩, false, [.scalar (.integer 3) ⟨.integer, "3", ⟨6, 1, 7⟩⟩]⟩,
    ⟨⟨.name, "sum", ⟨9, 1, 10⟩⟩, false, []⟩,
    ⟨⟨.name, "meet", ⟨15, 1, 16⟩⟩, false,
      [.compare .greater (.scalar (.integer 3) ⟨.integer, "3", ⟨21, 1, 22⟩⟩)]⟩]

/-- No filter stands before the sampler; it is warned of, and the chain is lowered. -/
theorem chain_lowered_inOrder_from_sampler :
    (∀ c ∈ operandCalls ⟨.empty, .empty, none⟩ limitedSum,
      ∃ o e u, (element ⟨.empty, .empty, none⟩ c).run o = (.ok e, u)) ∧
    InOrder [.sample, .aggregate, .verdict] ∧
    ∃ es plan code u, es.map Element.phase = [.sample, .aggregate, .verdict] ∧ PlanOf plan es ∧
      (chain ⟨.empty, .empty, none⟩ (operandCalls ⟨.empty, .empty, none⟩ limitedSum)).run .empty =
        (.ok code, u) ∧
      u.fragments = [⟨"chain_1", .chain plan⟩] ∧ u.warnings = [⟨"chain_1", "limit"⟩] := by
  have hvalid : ∀ c ∈ operandCalls ⟨.empty, .empty, none⟩ limitedSum,
      ∃ o e u, (element ⟨.empty, .empty, none⟩ c).run o = (.ok e, u) := by
    intro c hc
    simp only [limitedSum, operandCalls, List.mem_cons, List.not_mem_nil, or_false] at hc
    rcases hc with rfl | rfl | rfl
    · exact ⟨.empty, _, _, rfl⟩
    · exact ⟨.empty, _, _, rfl⟩
    · exact ⟨.empty, _, _, rfl⟩
  have horder : InOrder [.sample, .aggregate, .verdict] := ⟨0, false, true, false, false, rfl⟩
  obtain ⟨es, t, hes, hphases, hiff, hplans, -⟩ :=
    chain_lowered_inOrder ⟨.empty, .empty, none⟩ limitedSum hvalid .empty
  have hwarnings : ((elements ⟨.empty, .empty, none⟩ true
      (operandCalls ⟨.empty, .empty, none⟩ limitedSum)).run (Output.begun .empty)).2 =
        ⟨[], 1, some "chain_1", [⟨"chain_1", "limit"⟩]⟩ := rfl
  have hword : es.map Element.phase = [.sample, .aggregate, .verdict] :=
    ((List.map_inj_right fun _ _ => Option.some.inj).mp hphases).symm
  rw [hword] at hiff
  obtain ⟨code, u, hrun⟩ := hiff.mpr horder
  obtain ⟨plan, hplan, -, rfl⟩ := hplans code u hrun
  rw [hes] at hwarnings
  obtain rfl := hwarnings
  exact ⟨hvalid, horder, es, plan, code, _, hword, hplan, hrun, rfl, rfl⟩

end Lowering

end EventRules
