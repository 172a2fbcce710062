import Mathlib.Order.Bounds.Basic
import EventRules.Proofs.Monitor.Calling

/-!
# From when a wait is measured

A hold and a wait keep the time at which they began. They begin with the first event behind the last
break, which is an event on which they fired, or for a hold also one on which its condition failed. A wait
inside an arrow is measured from its anchor instead and leaves the kept time alone, so it does not count
as an event with which a wait begins. Elapsed time is compared as the exact difference, though it is cut
off at the ends of the range: only the least duration of all lies at an end where that would show, and no
rule has a duration that is not positive.
-/

namespace EventRules
set_option autoImplicit false

open Number Routine

theorem Number.le_subClamped_iff {a b x : Int64} (h : Int64.minValue < x) :
    x ≤ subClamped a b ↔ x.toInt ≤ a.toInt - b.toInt := by
  rw [← Int64.not_lt, ← Int.not_lt, subClamped, clamp64_lt_iff h]

/-- What is in progress at `i` began at `t`: the time of the first that counts behind all breaks
before `i`. -/
def BeganAt (time : Nat → Option Int64) (counts breaks : Nat → Prop) (i : Nat) (t : Int64) : Prop :=
  ∃ j ≤ i, IsLeast {j | counts j ∧ ∀ k < i, breaks k → k < j} j ∧ time j = some t

/-- The kept time when `i` events have come: when what is in progress began, if anything is. -/
def Remembers (time : Nat → Option Int64) (counts breaks : Nat → Prop) (i : Nat) : Option Int64 → Prop
  | none => ∀ j < i, counts j → ∃ k < i, breaks k ∧ j ≤ k
  | some t => BeganAt time counts breaks i t

section

variable {time : Nat → Option Int64} {counts breaks : Nat → Prop} {i : Nat} {since : Option Int64}
  {t : Int64}

theorem BeganAt.succ (h : BeganAt time counts breaks i t) (hi : ¬ breaks i) :
    BeganAt time counts breaks (i + 1) t := by
  obtain ⟨j, hle, hleast, htime⟩ := h
  refine ⟨j, Nat.le_succ_of_le hle, ⟨⟨hleast.1.1, fun k hk hbreaks => ?_⟩, fun l hl => ?_⟩, htime⟩
  · have hne : k ≠ i := fun heq => hi (heq ▸ hbreaks)
    exact hleast.1.2 k (by omega) hbreaks
  · exact hleast.2 ⟨hl.1, fun k hk hbreaks => hl.2 k (by omega) hbreaks⟩

theorem remembers_nothing : Remembers time counts breaks 0 none := fun _ hj => absurd hj (Nat.not_lt_zero _)

/-- An event that counts is measured from the kept time, or begins itself. -/
theorem Remembers.start (h : Remembers time counts breaks i since) (hi : counts i) (htime : time i = some t) :
    BeganAt time counts breaks i (since.getD t) := by
  cases since with
  | some _ => exact h
  | none =>
    refine ⟨i, Nat.le_refl i, ⟨⟨hi, fun _ hk _ => hk⟩, fun j hj => ?_⟩, htime⟩
    by_contra hlt
    obtain ⟨k, hk, hbreaks, hle⟩ := h j (Nat.not_le.mp hlt) hj.1
    exact absurd (hj.2 k hk hbreaks) (Nat.not_lt.mpr hle)

theorem remembers_of_break (hi : breaks i) : Remembers time counts breaks (i + 1) none :=
  fun _ hj _ => ⟨i, Nat.lt_succ_self i, hi, Nat.le_of_lt_succ hj⟩

theorem Remembers.skip (h : Remembers time counts breaks i since) (hcounts : ¬ counts i) (hi : ¬ breaks i) :
    Remembers time counts breaks (i + 1) since := by
  cases since with
  | some t => exact BeganAt.succ h hi
  | none =>
    intro j hj hcount
    have hne : j ≠ i := fun heq => hcounts (heq ▸ hcount)
    obtain ⟨k, hk, hbreaks, hle⟩ := h j (by omega) hcount
    exact ⟨k, Nat.lt_succ_of_lt hk, hbreaks, hle⟩

end

/-- The time of a visit. -/
def timeAt (visits : List Visit) (k : Nat) : Option Int64 := visits[k]?.map fun v => v.event.timestamp

/-- A hold ends when it fires, and when its condition fails. -/
def HoldEnds (holds : Event → Bool) (visits : List Visit) (answers : List Bool) (k : Nat) : Prop :=
  answers[k]? = some true ∨ ∃ v, visits[k]? = some v ∧ holds v.event = false

/-- The visit is not measured from an anchor. -/
def Unanchored (visits : List Visit) (k : Nat) : Prop := ∃ v, visits[k]? = some v ∧ v.anchor = none

namespace Monitor

variable {c : Code} {registry : Registry} {v : Visit} {ms : Int64}

theorem keep_moves (hfree : c.references = []) {held : Bool} (hheld : c.answer registry v.event = .ok held)
    (since : Option Int64) :
    let start := since.getD v.event.timestamp
    let fired := held && decide (ms ≤ subClamped v.event.timestamp start)
    Moves (.keep c ms) registry v (.keep since) (.keep (if held && !fired then some start else none))
      fired := by
  intro start fired eval heval fragments s
  change (runKeep eval c ms since _).run (State.keep since, s) = _
  rw [runKeep, run_bind_ok (held_run hfree hheld heval fragments _ s)]
  cases held with
  | false => rfl
  | true =>
    by_cases hlong : ms ≤ subClamped v.event.timestamp start
    · simp only [fired, start, hlong, if_true, decide_true, Bool.and_true, Bool.not_true, Bool.false_eq_true,
        if_false]
      rfl
    · simp only [fired, start, hlong, if_true, if_false, decide_false, Bool.and_false, Bool.not_true,
        Bool.not_false, Bool.and_true, Bool.false_eq_true]
      rfl

theorem delay_run (eval : Evaluator) (since : Option Int64) (frame : Frame) (s : Session) :
    (Monitor.run eval (.delay ms) frame).run (State.delay since, s) =
      (runDelay ms since frame).run (State.delay since, s) := by
  have hown : (Step.own : Step State State).run (State.delay since, s) =
      (.ok (State.delay since), (State.delay since, s)) := rfl
  have hset : (Step.setOwn (State.delay since)).run (State.delay since, s) =
      (.ok (), (State.delay since, s)) := rfl
  rw [Monitor.run, run_bind_ok hown]
  exact run_bind_ok hset _

theorem delay_moves (since : Option Int64) (h : v.anchor = none) :
    let start := since.getD v.event.timestamp
    let fired := decide (ms ≤ subClamped v.event.timestamp start)
    Moves (.delay ms) registry v (.delay since) (.delay (if fired then none else some start)) fired := by
  intro start fired eval heval fragments s
  rw [delay_run, runDelay]
  simp only [h, Option.getD_none]
  by_cases hlong : ms ≤ subClamped v.event.timestamp start
  · simp only [fired, start, hlong, if_true, decide_true]
    rfl
  · simp only [fired, start, hlong, if_false, decide_false, Option.isNone_none, if_true, Bool.false_eq_true]
    rfl

/-- Measured from an anchor, a wait keeps the time that it has kept, and drops it when it fires. -/
theorem anchored_delay_moves (since : Option Int64) {t : Int64} (h : v.anchor = some t) :
    let fired := decide (ms ≤ subClamped v.event.timestamp t)
    Moves (.delay ms) registry v (.delay since) (.delay (if fired then none else since)) fired := by
  intro fired eval heval fragments s
  rw [delay_run, runDelay]
  simp only [h, Option.getD_some]
  by_cases hlong : ms ≤ subClamped v.event.timestamp t
  · simp only [fired, hlong, if_true, decide_true]
    rfl
  · simp only [fired, hlong, if_false, decide_false, Option.isNone_some, Bool.false_eq_true]
    rfl

end Monitor

theorem at_prefix_end {α : Type} {xs ys : List α} {x : α} (h : xs ++ [x] <+: ys) :
    ys[xs.length]? = some x := by
  obtain ⟨zs, rfl⟩ := h
  rw [List.append_assoc, List.getElem?_append_right (Nat.le_refl _), Nat.sub_self]
  rfl

/-- What a hold knows of the visits before: the time that it keeps, whatever visits follow. -/
def HoldKnown (holds : Event → Bool) (before : List Visit) (answers : List Bool) (own : Monitor.State) :
    Prop :=
  ∃ since, own = .keep since ∧ ∀ visits all, before <+: visits → answers <+: all →
    Remembers (timeAt visits) (fun _ => True) (HoldEnds holds visits all) before.length since

/-- A hold fires if its condition holds and has done so for the duration since the hold began. -/
def HoldFires (holds : Event → Bool) (ms : Int64) (visits : List Visit) (answers : List Bool) (i : Nat)
    (v : Visit) (answer : Bool) : Prop :=
  ∃ start, BeganAt (timeAt visits) (fun _ => True) (HoldEnds holds visits answers) i start ∧
    (answer = true ↔ holds v.event = true ∧ ms.toInt ≤ v.event.timestamp.toInt - start.toInt)

theorem holdEnds_iff (holds : Event → Bool) {visits : List Visit} {answers : List Bool} {i : Nat} {v : Visit}
    {answer : Bool} (hv : visits[i]? = some v) (hanswer : answers[i]? = some answer) :
    HoldEnds holds visits answers i ↔ ¬ (holds v.event && !answer) = true := by
  rw [HoldEnds, hanswer, hv]
  cases answer <;> simp

theorem hold_kept {c : Code} {registry : Registry} {holds : Event → Bool} {ms : Int64} {v : Visit}
    {before : List Visit} {answers : List Bool} {own : Monitor.State} (hms : Int64.minValue < ms)
    (hfree : c.references = []) (hheld : c.answer registry v.event = .ok (holds v.event))
    (hlength : answers.length = before.length) (h : HoldKnown holds before answers own) :
    ∃ answer own', Monitor.Moves (.keep c ms) registry v own own' answer ∧
      HoldKnown holds (before ++ [v]) (answers ++ [answer]) own' ∧
      ∀ visits all, before ++ [v] <+: visits → answers ++ [answer] <+: all →
        HoldFires holds ms visits all before.length v answer := by
  obtain ⟨since, rfl, hsince⟩ := h
  have hbegan : ∀ visits all, before ++ [v] <+: visits → answers <+: all → BeganAt (timeAt visits)
      (fun _ => True) (HoldEnds holds visits all) before.length (since.getD v.event.timestamp) := by
    intro visits all hvisits hall
    refine (hsince visits all ((List.prefix_append _ _).trans hvisits) hall).start trivial ?_
    exact congrArg (Option.map _) (at_prefix_end hvisits)
  refine ⟨_, _, Monitor.keep_moves hfree hheld since, ⟨_, rfl, ?_⟩, ?_⟩
  · intro visits all hvisits hall
    have hends := holdEnds_iff holds (at_prefix_end hvisits)
      (hlength ▸ at_prefix_end hall)
    rw [List.length_append, List.length_singleton]
    split
    · rename_i hgoes
      exact (hbegan visits all hvisits ((List.prefix_append _ _).trans hall)).succ
        fun hbreaks => hends.mp hbreaks hgoes
    · rename_i hends'
      exact remembers_of_break (hends.mpr hends')
  · intro visits all hvisits hall
    refine ⟨_, hbegan visits all hvisits ((List.prefix_append _ _).trans hall), ?_⟩
    rw [Bool.and_eq_true, decide_eq_true_eq, le_subClamped_iff hms]

/-- What a wait knows of the visits before, as a hold does; the visits that are measured from an anchor
do not count. -/
def WaitKnown (before : List Visit) (answers : List Bool) (own : Monitor.State) : Prop :=
  ∃ since, own = .delay since ∧ ∀ visits all, before <+: visits → answers <+: all →
    Remembers (timeAt visits) (Unanchored visits) (fun k => all[k]? = some true) before.length since

/-- A wait fires when the duration is over since its anchor, or without one since the wait began. -/
def WaitFires (ms : Int64) (visits : List Visit) (answers : List Bool) (i : Nat) (v : Visit)
    (answer : Bool) : Prop :=
  ∃ start, (v.anchor = some start ∨ v.anchor = none ∧
      BeganAt (timeAt visits) (Unanchored visits) (fun k => answers[k]? = some true) i start) ∧
    (answer = true ↔ ms.toInt ≤ v.event.timestamp.toInt - start.toInt)

theorem unanchored_iff {visits : List Visit} {i : Nat} {v : Visit} (hv : visits[i]? = some v) :
    Unanchored visits i ↔ v.anchor = none := by
  simp [Unanchored, hv]

section

variable {registry : Registry} {ms : Int64} {v : Visit} {before : List Visit} {answers : List Bool}
  {own : Monitor.State}

theorem anchored_wait_kept (hms : Int64.minValue < ms) {start : Int64} (hanchor : v.anchor = some start)
    (hlength : answers.length = before.length) (h : WaitKnown before answers own) :
    ∃ answer own', Monitor.Moves (.delay ms) registry v own own' answer ∧
      WaitKnown (before ++ [v]) (answers ++ [answer]) own' ∧
      ∀ visits all, before ++ [v] <+: visits → answers ++ [answer] <+: all →
        WaitFires ms visits all before.length v answer := by
  obtain ⟨since, rfl, hsince⟩ := h
  refine ⟨_, _, Monitor.anchored_delay_moves since hanchor, ⟨_, rfl, ?_⟩, ?_⟩
  · intro visits all hvisits hall
    have hanswer := hlength ▸ at_prefix_end hall
    rw [List.length_append, List.length_singleton]
    split
    · rename_i hfired
      exact remembers_of_break (hanswer.trans (congrArg some hfired))
    · rename_i hquiet
      have hknown := hsince visits all ((List.prefix_append _ _).trans hvisits)
        ((List.prefix_append _ _).trans hall)
      refine hknown.skip ?_ ?_
      · rw [unanchored_iff (at_prefix_end hvisits), hanchor]
        exact Option.some_ne_none start
      · rw [hanswer, Option.some.injEq]
        exact hquiet
  · intro visits all _ _
    refine ⟨start, .inl hanchor, ?_⟩
    rw [decide_eq_true_eq, le_subClamped_iff hms]

theorem unanchored_wait_kept (hms : Int64.minValue < ms) (hanchor : v.anchor = none)
    (hlength : answers.length = before.length) (h : WaitKnown before answers own) :
    ∃ answer own', Monitor.Moves (.delay ms) registry v own own' answer ∧
      WaitKnown (before ++ [v]) (answers ++ [answer]) own' ∧
      ∀ visits all, before ++ [v] <+: visits → answers ++ [answer] <+: all →
        WaitFires ms visits all before.length v answer := by
  obtain ⟨since, rfl, hsince⟩ := h
  have hbegan : ∀ visits all, before ++ [v] <+: visits → answers <+: all → BeganAt (timeAt visits)
      (Unanchored visits) (fun k => all[k]? = some true) before.length
      (since.getD v.event.timestamp) := by
    intro visits all hvisits hall
    have hv := at_prefix_end hvisits
    exact (hsince visits all ((List.prefix_append _ _).trans hvisits) hall).start
      ((unanchored_iff hv).mpr hanchor) (congrArg (Option.map _) hv)
  refine ⟨_, _, Monitor.delay_moves since hanchor, ⟨_, rfl, ?_⟩, ?_⟩
  · intro visits all hvisits hall
    have hanswer := hlength ▸ at_prefix_end hall
    rw [List.length_append, List.length_singleton]
    split
    · rename_i hfired
      exact remembers_of_break (hanswer.trans (congrArg some hfired))
    · rename_i hquiet
      refine (hbegan visits all hvisits ((List.prefix_append _ _).trans hall)).succ ?_
      rw [hanswer, Option.some.injEq]
      exact hquiet
  · intro visits all hvisits hall
    refine ⟨_, .inr ⟨hanchor, hbegan visits all hvisits ((List.prefix_append _ _).trans hall)⟩, ?_⟩
    rw [decide_eq_true_eq, le_subClamped_iff hms]

theorem wait_kept (hms : Int64.minValue < ms) (hlength : answers.length = before.length)
    (h : WaitKnown before answers own) :
    ∃ answer own', Monitor.Moves (.delay ms) registry v own own' answer ∧
      WaitKnown (before ++ [v]) (answers ++ [answer]) own' ∧
      ∀ visits all, before ++ [v] <+: visits → answers ++ [answer] <+: all →
        WaitFires ms visits all before.length v answer := by
  cases hanchor : v.anchor with
  | none => exact unanchored_wait_kept hms hanchor hlength h
  | some start => exact anchored_wait_kept hms hanchor hlength h

end

section

variable {fragments : List Fragment} {registry : Registry} {name : String} {index : Nat} {ms : Int64}
  {s : Session}

theorem prefix_at_position {α : Type} {xs : List α} {i : Nat} {x : α} (h : xs[i]? = some x) :
    xs.take i ++ [x] <+: xs := by
  have htaken : xs.take (i + 1) = xs.take i ++ [x] := by rw [List.take_add_one, h, Option.toList_some]
  exact htaken ▸ List.take_prefix _ _

theorem length_take_at {α : Type} {xs : List α} {i : Nat} {x : α} (h : xs[i]? = some x) :
    (xs.take i).length = i :=
  List.length_take_of_le (Nat.le_of_lt (List.getElem?_eq_some_iff.mp h).1)

/-- Elapsed time is measured exactly. A hold fires if its condition holds and the time since the hold
began has reached the duration. So does a wait that is called without an anchor, and one that is called
with an anchor fires by the time since the anchor; it keeps no other time than it has kept before, and
none if it fires. -/
theorem elapsed_time_exact (hms : Int64.minValue < ms) :
    (∀ {c : Code} {holds : Event → Bool} {visits : List Visit},
      fragments[index]? = some ⟨name, .monitor (.keep c ms)⟩ → c.references = [] →
      (∀ v ∈ visits, c.answer registry v.event = .ok (holds v.event)) → s.env.states.get? name = none →
      ∃ answers t, (callEach fragments registry name index visits).run s = (.ok answers, t) ∧
        answers.length = visits.length ∧
        ∀ i v answer, visits[i]? = some v → answers[i]? = some answer →
          HoldFires holds ms visits answers i v answer) ∧
    (fragments[index]? = some ⟨name, .monitor (.delay ms)⟩ →
      (s.env.states.get? name = none → ∀ visits,
        ∃ answers t, (callEach fragments registry name index visits).run s = (.ok answers, t) ∧
          answers.length = visits.length ∧
          ∀ i v answer, visits[i]? = some v → answers[i]? = some answer →
            WaitFires ms visits answers i v answer) ∧
      ∀ e start since, Fragment.stateIn ⟨name, .monitor (.delay ms)⟩ s.env = .monitor (.delay since) →
        ∃ answer t, (callFragment fragments.length name index ⟨e, some start, fragments, registry⟩).run s =
            (.ok answer, t) ∧
          (answer = true ↔ ms.toInt ≤ e.timestamp.toInt - start.toInt) ∧
          Fragment.stateIn ⟨name, .monitor (.delay ms)⟩ t.env =
            .monitor (.delay (if answer then none else since))) := by
  refine ⟨?_, fun hplace => ⟨?_, ?_⟩⟩
  · intro c holds visits hplace hfree hanswers hs
    obtain ⟨answers, -, t, hrun, -, -, hlength, heach⟩ :=
      callEach_run visits (HoldKnown holds) (fun before answers v answer => ∀ visits all,
          before ++ [v] <+: visits → answers ++ [answer] <+: all →
            HoldFires holds ms visits all before.length v answer) hplace
        ⟨none, rfl, fun _ _ _ _ => remembers_nothing⟩
        (fun before answers own v hv => hold_kept hms hfree (hanswers v hv)) (monitor_initially hs)
    refine ⟨answers, t, hrun, hlength, fun i v answer hv hanswer => ?_⟩
    have hfires := heach i v answer hv hanswer visits answers (prefix_at_position hv)
      (prefix_at_position hanswer)
    rwa [length_take_at hv] at hfires
  · intro hs visits
    obtain ⟨answers, -, t, hrun, -, -, hlength, heach⟩ :=
      callEach_run visits WaitKnown (fun before answers v answer => ∀ visits all,
          before ++ [v] <+: visits → answers ++ [answer] <+: all →
            WaitFires ms visits all before.length v answer) hplace
        ⟨none, rfl, fun _ _ _ _ => remembers_nothing⟩
        (fun before answers own v hv => wait_kept hms) (monitor_initially hs)
    refine ⟨answers, t, hrun, hlength, fun i v answer hv hanswer => ?_⟩
    have hfires := heach i v answer hv hanswer visits answers (prefix_at_position hv)
      (prefix_at_position hanswer)
    rwa [length_take_at hv] at hfires
  · intro e start since hstate
    have hmoves : Monitor.Moves (.delay ms) registry ⟨e, some start⟩ (.delay since) _ _ :=
      Monitor.anchored_delay_moves since rfl
    obtain ⟨t, hcall, hafter⟩ := call_of_moves hplace hmoves hstate
    refine ⟨_, t, hcall, ?_, hafter⟩
    rw [decide_eq_true_eq, le_subClamped_iff hms]

end

/-- A hold from the least to the greatest time; a wait that fires by an anchor and begins anew behind it;
and a wait that keeps its time beside an anchor that is too late. -/
theorem elapsed_time_exact_at_limits :
    let c : Code := .compare .greater (.literal (.integer 0))
    let holds (e : Event) : Bool := e.value == .integer 1
    let held : List Visit :=
      [⟨⟨"", .integer 1, Int64.minValue⟩, none⟩, ⟨⟨"", .integer 1, Int64.maxValue⟩, none⟩]
    let waited : List Visit :=
      [⟨⟨"", .null, 0⟩, none⟩, ⟨⟨"", .null, 3⟩, some (-20)⟩, ⟨⟨"", .null, 5⟩, none⟩,
        ⟨⟨"", .null, 15⟩, none⟩]
    let fragments : List Fragment :=
      [⟨"keep_1", .monitor (.keep c Int64.maxValue)⟩, ⟨"delay_1", .monitor (.delay 10)⟩]
    let began : Session := ⟨⟨.empty, Keyed.empty.put "delay_1" (.monitor (.delay (some 0)))⟩, []⟩
    (∀ v ∈ held, c.answer .standard v.event = .ok (holds v.event)) ∧
      (∃ t, (callEach fragments .standard "keep_1" 0 held).run ⟨.empty, []⟩ = (.ok [false, true], t) ∧
        HoldFires holds Int64.maxValue held [false, true] 1 ⟨⟨"", .integer 1, Int64.maxValue⟩, none⟩
          true) ∧
      (∃ t, (callEach fragments .standard "delay_1" 1 waited).run ⟨.empty, []⟩ =
          (.ok [false, true, false, true], t) ∧
        WaitFires 10 waited [false, true, false, true] 3 ⟨⟨"", .null, 15⟩, none⟩ true) ∧
      ∃ t, (callFragment 2 "delay_1" 1 ⟨⟨"", .null, 4⟩, some 1, fragments, .standard⟩).run began =
          (.ok false, t) ∧
        Fragment.stateIn ⟨"delay_1", .monitor (.delay 10)⟩ t.env = .monitor (.delay (some 0)) := by
  intro c holds held waited fragments began
  have hanswers : ∀ v ∈ held, c.answer .standard v.event = .ok (holds v.event) := by decide +kernel
  have hkeep : fragments[0]? = some ⟨"keep_1", .monitor (.keep c Int64.maxValue)⟩ := rfl
  have hdelay : fragments[1]? = some ⟨"delay_1", .monitor (.delay 10)⟩ := rfl
  refine ⟨hanswers, ?_, ?_, ?_⟩
  · obtain ⟨answers, t, hrun, -, heach⟩ :=
      (elapsed_time_exact (s := ⟨.empty, []⟩) (by decide)).1 hkeep rfl hanswers rfl
    have hcomputed : ((callEach fragments .standard "keep_1" 0 held).run ⟨.empty, []⟩).1 =
        .ok [false, true] := by decide +kernel
    rw [hrun] at hcomputed
    cases hcomputed
    exact ⟨t, hrun, heach 1 _ true rfl rfl⟩
  · obtain ⟨answers, t, hrun, -, heach⟩ :=
      ((elapsed_time_exact (s := ⟨.empty, []⟩) (by decide)).2 hdelay).1 rfl waited
    have hcomputed : ((callEach fragments .standard "delay_1" 1 waited).run ⟨.empty, []⟩).1 =
        .ok [false, true, false, true] := by decide +kernel
    rw [hrun] at hcomputed
    cases hcomputed
    exact ⟨t, hrun, heach 3 _ true rfl rfl⟩
  · obtain ⟨answer, t, hrun, hfires, hafter⟩ :=
      ((elapsed_time_exact (s := began) (by decide)).2 hdelay).2 ⟨"", .null, 4⟩ 1 (some 0) rfl
    have hquiet : answer = false := by
      rw [← Bool.not_eq_true, hfires]
      decide
    subst hquiet
    exact ⟨t, hrun, hafter⟩

end EventRules
