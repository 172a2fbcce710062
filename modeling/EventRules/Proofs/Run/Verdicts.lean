import EventRules.Proofs.Matching.Selection
import EventRules.Proofs.Run.Footprint

/-!
# What a verdict is about

The condition of a verdict tests the reduced value, and so does every filter of the host that it asks.
But what it calls is run on the event that has come, and tests the reading of that event. So there are
two ways into a verdict: the reduced value comes in through the code that stands in the condition, and
the reading only through the fragments that are called.
-/

namespace EventRules
set_option autoImplicit false

open Routine

/-- The same view of an event with another reading. -/
def Frame.reading (frame : Frame) (v : Value) : Frame :=
  { frame with event := { frame.event with value := v } }

/-! ### Code and fragments that test nothing themselves -/

/-- The value under test is looked at by the code itself, not by what it calls. -/
def Code.tests : Code → Bool
  | literal _ | call _ _ => false
  | subject | compare _ _ | filter _ => true
  | binary _ left right => left.tests || right.tests
  | not inner => inner.tests
  | step _ operand => operand.tests

def Monitor.Plan.Blind : Monitor.Plan → Prop
  | count condition _ _ | keep condition _ => condition.tests = false
  | delay _ => True
  | slope _ _ => False

/-- The fragment does nothing with the reading itself. A chain retains it, and a slope is a change
of it. -/
def FragmentBody.Blind : FragmentBody → Prop
  | chain _ => False
  | arrow plan => ∀ stage ∈ plan.stages, stage.tests = false
  | monitor plan => plan.Blind

/-- Every fragment within reach of the calls does nothing with the reading. -/
def BlindWithin (table : List Fragment) (refs : List Reference) : Prop :=
  ∀ j f, Reaches table refs j → table[j]? = some f → f.body.Blind

/-! ### Evaluation -/

/-- The value under test matters only to code that tests it, and the reading only to calls. -/
theorem evaluate_reading {call : String → Nat → Frame → Run Bool} {c : Code} {frame : Frame}
    {v a b : Value}
    (hcalls : ∀ r ∈ c.references,
      call r.name r.index (frame.reading v) = call r.name r.index frame)
    (htests : c.tests = true → a = b) :
    c.evaluate call a (frame.reading v) = c.evaluate call b frame := by
  induction c with
  | literal w => rfl
  | subject =>
    rw [htests rfl]
    rfl
  | binary op left right ihl ihr =>
    have hleft : left.evaluate call a (frame.reading v) = left.evaluate call b frame := by
      apply ihl
      · exact fun r hr => hcalls r (List.mem_append_left _ hr)
      · exact fun h => htests (by rw [Code.tests, h, Bool.true_or])
    have hright : right.evaluate call a (frame.reading v) = right.evaluate call b frame := by
      apply ihr
      · exact fun r hr => hcalls r (List.mem_append_right _ hr)
      · exact fun h => htests (by rw [Code.tests, h, Bool.or_true])
    cases op <;> simp only [Code.evaluate, hleft, hright]
  | not inner ih => simp only [Code.evaluate, ih hcalls htests]
  | step up operand ih => simp only [Code.evaluate, ih hcalls htests]
  | compare op operand ih =>
    obtain rfl := htests rfl
    simp only [Code.evaluate, ih hcalls fun _ => rfl]
  | call fragment index =>
    have hcall := hcalls ⟨fragment, index⟩ List.mem_cons_self
    simp only [Code.evaluate, hcall]
  | filter extension =>
    obtain rfl := htests rfl
    rfl

/-! ### Blind fragments -/

/-- Beside the fragments of the table the code holds alike, whatever it tests and whatever the reading
is. -/
def Evaluator.Overlooks (eval : Evaluator) (table : List Fragment) (v : Value) (c : Code) : Prop :=
  ∀ frame : Frame, frame.fragments = table →
    ∀ a b, eval.holds c a (frame.reading v) = eval.holds c b frame

section

variable {eval : Evaluator} {table : List Fragment} {v : Value} {frame : Frame}

theorem arrow_reading (hframe : frame.fragments = table) {plan : Arrow.Plan}
    (h : ∀ stage ∈ plan.stages, eval.Overlooks table v stage) :
    Arrow.run eval plan (frame.reading v) = Arrow.run eval plan frame := by
  unfold Arrow.run
  apply bind_congr
  intro state
  cases hstage : plan.stages[state.pointer]? with
  | none => rfl
  | some stage =>
    have hheld : eval.holds stage (frame.reading v).event.value
        { frame.reading v with anchor := state.anchor } =
          eval.holds stage frame.event.value { frame with anchor := state.anchor } :=
      h stage (List.mem_of_getElem? hstage) { frame with anchor := state.anchor } hframe _ _
    dsimp only
    rw [hheld]
    rfl

theorem count_reading (hframe : frame.fragments = table) {c : Code} (h : eval.Overlooks table v c)
    (times : Nat) (isStrict : Bool) (seen : Nat) :
    Monitor.runCount eval c times isStrict seen (frame.reading v) =
      Monitor.runCount eval c times isStrict seen frame := by
  unfold Monitor.runCount
  rw [h frame hframe (frame.reading v).event.value frame.event.value]

theorem keep_reading (hframe : frame.fragments = table) {c : Code} (h : eval.Overlooks table v c)
    (ms : Int64) (since : Option Int64) :
    Monitor.runKeep eval c ms since (frame.reading v) = Monitor.runKeep eval c ms since frame := by
  unfold Monitor.runKeep
  rw [h frame hframe (frame.reading v).event.value frame.event.value]
  rfl

theorem monitor_reading (hframe : frame.fragments = table) {plan : Monitor.Plan} (hblind : plan.Blind)
    (h : ∀ c : Code, c.references ⊆ plan.references → c.tests = false → eval.Overlooks table v c) :
    Monitor.run eval plan (frame.reading v) = Monitor.run eval plan frame := by
  cases plan with
  | count c times isStrict =>
    simp only [Monitor.run, count_reading hframe (h c (List.Subset.refl _) hblind)]
  | keep c ms => simp only [Monitor.run, keep_reading hframe (h c (List.Subset.refl _) hblind)]
  | delay ms => rfl
  | slope c unit => cases hblind

theorem fragment_reading (hframe : frame.fragments = table) {f : Fragment} (hblind : f.body.Blind)
    (h : ∀ c : Code, c.references ⊆ f.references → c.tests = false → eval.Overlooks table v c) :
    f.run eval (frame.reading v) = f.run eval frame := by
  obtain ⟨name, body⟩ := f
  unfold Fragment.run
  apply bind_congr
  intro _
  apply bind_congr
  intro s
  dsimp only
  generalize (s.env.states.get? name).getD body.initial = own
  cases body with
  | chain plan => cases hblind
  | arrow plan =>
    have hrun : Arrow.run eval plan (frame.reading v) = Arrow.run eval plan frame := by
      apply arrow_reading hframe
      intro stage hstage
      apply h stage
      · exact fun r hr => List.mem_flatMap.mpr ⟨stage, hstage, hr⟩
      · exact hblind stage hstage
    cases own with
    | arrow state => exact congrArg (withState name .arrow state) hrun
    | _ => rfl
  | monitor plan =>
    have hrun : Monitor.run eval plan (frame.reading v) = Monitor.run eval plan frame :=
      monitor_reading hframe hblind h
    cases own with
    | monitor state => exact congrArg (withState name .monitor state) hrun
    | _ => rfl

end

/-- A call within reach of blind fragments only does nothing with the reading. -/
theorem call_reading {table : List Fragment} {refs : List Reference} (hblind : BlindWithin table refs)
    (v : Value) (depth : Nat) {r : Reference} (hr : r ∈ refs) {frame : Frame}
    (hframe : frame.fragments = table) :
    callFragment depth r.name r.index (frame.reading v) = callFragment depth r.name r.index frame := by
  induction depth generalizing refs r frame with
  | zero => rfl
  | succ depth ih =>
    subst hframe
    have htable : (frame.reading v).fragments[r.index]? = frame.fragments[r.index]? := rfl
    rw [callFragment, callFragment, htable]
    cases hf : frame.fragments[r.index]? with
    | none => rfl
    | some f =>
      have hreached : Reaches frame.fragments refs r.index := .direct hr
      have hrun : f.run (Code.evaluate (callFragment depth)) (frame.reading v) =
          f.run (Code.evaluate (callFragment depth)) frame := by
        apply fragment_reading rfl (hblind _ _ hreached hf)
        intro c hrefs htests inner hinner a b
        have hinside : BlindWithin frame.fragments f.references :=
          fun j g hj hg => hblind j g (hreached.inside hf hj) hg
        unfold Evaluator.holds
        rw [evaluate_reading (fun s hs => ih hinside (hrefs hs) hinner) (by simp [htests])]
      dsimp only
      rw [hrun]

/-! ### Verdicts -/

namespace Chain

/-- If what the condition calls does nothing with the reading, then the verdict is one on the reduced
value alone: the reading makes no difference to it nor to what it leaves behind. If the condition tests
nothing outside its calls, then the reduced value makes none. -/
theorem verdict_of_blind_calls {plan : Plan} {code : Code} (hplan : plan.verdict = .condition code)
    (frame : Frame) (s : Session) :
    (BlindWithin frame.fragments code.references → ∀ v aggregate,
      (judge evaluate (frame.reading v) plan.verdict aggregate).run s =
        (judge evaluate frame plan.verdict aggregate).run s) ∧
    (code.tests = false → ∀ a b,
      (judge evaluate frame plan.verdict a).run s = (judge evaluate frame plan.verdict b).run s) := by
  rw [hplan]
  constructor
  · intro hblind v aggregate
    have hsame : evaluate code aggregate (frame.reading v) = evaluate code aggregate frame :=
      evaluate_reading (fun r hr => call_reading hblind v _ hr rfl) fun _ => rfl
    simp only [judge, Evaluator.holds, hsame]
  · intro htests a b
    -- the reading stays what it is
    have hsame : evaluate code a (frame.reading frame.event.value) = evaluate code b frame :=
      evaluate_reading (fun r hr => rfl) (by simp [htests])
    have hframe : frame.reading frame.event.value = frame := rfl
    rw [hframe] at hsame
    simp only [judge, Evaluator.holds, hsame]

/-- The verdict of a condition on the reduced value when a reading comes first, and what it leaves. -/
def firstVerdict (rule : Rule) (code : Code) (v aggregate : Value) : Except RunError Bool × Session :=
  (judge evaluate ⟨⟨"a", v, 0⟩, none, rule.fragments, .empty⟩ (.condition code) aggregate).run
    ⟨.empty, []⟩

/-- The chain `limit(1).count()`, which reduces every event to 1. -/
def latestCount (verdict : Code) : Plan :=
  ⟨[], some (.limit (.count 1)), none, .count, .condition verdict, false⟩

/-- The condition `>0&&delay(5s)`. -/
def positiveAfterWait : Code :=
  .binary .and (.compare .greater (.literal (.integer 0))) (.call "delay_2" 0)

/-- A wait takes no notice of the reading. A counter does, and of nothing else: the reading 1 is counted
and 5 is not, although the value under test is 1 for both. -/
theorem verdict_beside_wait_and_by_counter :
    (∃ rule, compile .empty [] "limit(1).count().meet(>0&&delay(5s))" = .ok rule ∧
      rule.fragments = [⟨"delay_2", .monitor (.delay 5000)⟩,
        ⟨"chain_1", .chain (latestCount positiveAfterWait)⟩] ∧
      BlindWithin rule.fragments positiveAfterWait.references ∧
      firstVerdict rule positiveAfterWait (.integer 1) (.integer 1) =
        firstVerdict rule positiveAfterWait (.integer 5) (.integer 1)) ∧
    ∃ rule, compile .empty [] "limit(1).count().meet(count(==1,1))" = .ok rule ∧
      rule.fragments = [⟨"count_2", .monitor (.count (.compare .equal (.literal (.integer 1))) 1 false)⟩,
        ⟨"chain_1", .chain (latestCount (.call "count_2" 0))⟩] ∧
      (∀ v, firstVerdict rule (.call "count_2" 0) v (.integer 1) =
        firstVerdict rule (.call "count_2" 0) v (.integer 5)) ∧
      (firstVerdict rule (.call "count_2" 0) (.integer 1) (.integer 1)).1 = .ok true ∧
      (firstVerdict rule (.call "count_2" 0) (.integer 5) (.integer 1)).1 = .ok false := by
  have hverdict : ∀ code, (latestCount code).verdict = .condition code := fun _ => rfl
  constructor
  · obtain ⟨rule, hrule, hfragments⟩ := exists_of_any (p := fun rule =>
        rule.fragments == [⟨"delay_2", .monitor (.delay 5000)⟩,
          ⟨"chain_1", .chain (latestCount positiveAfterWait)⟩])
      (r := compile .empty [] "limit(1).count().meet(>0&&delay(5s))") (by decide +kernel)
    have hfragments := eq_of_beq hfragments
    have hblind : BlindWithin rule.fragments positiveAfterWait.references := by
      rw [hfragments]
      intro j f hj hf
      have hplace : j = 0 := by
        apply hj.closed (P := fun j => j = 0)
        · intro r hr
          rw [List.mem_singleton.mp hr]
        · rintro i f hf rfl r hr
          cases hf
          cases hr
      subst hplace
      cases hf
      trivial
    have hverdicts := verdict_of_blind_calls (hverdict positiveAfterWait)
      ⟨⟨"a", .integer 5, 0⟩, none, rule.fragments, .empty⟩ ⟨.empty, []⟩
    exact ⟨rule, hrule, hfragments, hblind, hverdicts.1 hblind (.integer 1) (.integer 1)⟩
  · obtain ⟨rule, hrule, hfragments⟩ := exists_of_any (p := fun rule =>
        rule.fragments == [⟨"count_2", .monitor (.count (.compare .equal (.literal (.integer 1))) 1 false)⟩,
          ⟨"chain_1", .chain (latestCount (.call "count_2" 0))⟩])
      (r := compile .empty [] "limit(1).count().meet(count(==1,1))") (by decide +kernel)
    have hfragments := eq_of_beq hfragments
    refine ⟨rule, hrule, hfragments, ?_, ?_, ?_⟩
    · intro v
      exact (verdict_of_blind_calls (hverdict (.call "count_2" 0))
        ⟨⟨"a", v, 0⟩, none, rule.fragments, .empty⟩ ⟨.empty, []⟩).2 rfl (.integer 1) (.integer 5)
    · unfold firstVerdict
      rw [hfragments]
      rfl
    · unfold firstVerdict
      rw [hfragments]
      rfl

end Chain

end EventRules
