import EventRules.Proofs.Matching.Runs

/-!
# Halves of a logical operator

The right side of an operator is lowered behind the left side, and it is lowered there as it would be
alone: its fragments are twins of those of its own rule, at places that are shifted by the fragments of
the left side. The names of all fragments differ, so what happens to the states of one half is nothing
to the other. A matcher of `||` or `&&` is therefore two matchers side by side, of which the second one
is fed only with the events that the first one does not decide.
-/

namespace EventRules
set_option autoImplicit false

open Routine Lowering

/-- The answer of the left side after which the right side is skipped. -/
def BinaryOp.decisive? : BinaryOp → Option Bool
  | .or => some true
  | .and => some false
  | _ => none

def RunError.anonymous : RunError → RunError
  | .startAfterEnd _ start stop => .startAfterEnd "" start stop
  | .missingFragment _ => .missingFragment ""
  | e => e

namespace Matcher

/-- What two matchers say one after the other, if the answer `short` of the first one decides, and the
second matcher after that. -/
def joined (short : Bool) (l r : Matcher) (event : Event) : Except RunError Bool × Matcher :=
  match (l.feed event).1.result with
  | .error e => (.error e, r)
  | .ok b => if b = short then (.ok short, r) else ((r.feed event).1.result, (r.feed event).2)

/-- The events that a matcher, fed with all of them, answers and does not decide. -/
def undecided (short : Bool) (m : Matcher) : List Event → List Event
  | [] => []
  | e :: es =>
    let others := (m.feed e).2.undecided short es
    if (m.feed e).1.result = .ok (!short) then e :: others else others

end Matcher

/-! ### Lowering -/

/-- The rule of an operator and the rules of its sides. -/
structure Halves where
  whole : Rule
  left : Rule
  right : Rule

namespace Halves

def leftSite (h : Halves) : Site := ⟨h.whole.registry, True, h.whole.fragments, h.left.fragments, 0⟩

def rightSite (h : Halves) : Site :=
  ⟨h.whole.registry, True, h.whole.fragments, h.right.fragments, h.left.fragments.length⟩

structure Twins (h : Halves) (op : BinaryOp) : Prop where
  left_registry : h.left.registry = h.whole.registry
  right_registry : h.right.registry = h.whole.registry
  length : h.whole.fragments.length = h.left.fragments.length + h.right.fragments.length
  left : h.leftSite.Twins
  right : h.rightSite.Twins
  entry : ∃ c d, h.whole.entry = .binary op c d ∧ CodeTwin h.leftSite c h.left.entry ∧
    CodeTwin h.rightSite d h.right.entry

variable {h : Halves} {op : BinaryOp}

theorem Twins.apart (hw : h.Twins op) {j k : Nat} {x y x' y' : String} (hl : h.leftSite.Place j x y)
    (hr : h.rightSite.Place k x' y') : x ≠ x' := by
  rintro rfl
  obtain ⟨f, g, hf, hg, hx, -⟩ := hl.fragments
  obtain ⟨f', -, hf', -, hx', -⟩ := hr.fragments
  have hjk : h.leftSite.offset + j = h.rightSite.offset + k :=
    Site.index_eq_of_name hw.left.left_names hf hf' (hx.trans hx'.symm)
  have hj : j < h.left.fragments.length := (List.getElem?_eq_some_iff.mp hg).1
  simp only [leftSite, rightSite] at hjk
  omega

end Halves

variable {registry : Registry} {constants : Keyed Value} {source : String} {op : BinaryOp} {a b : Expr}
  {rule : Rule}

/-- The sides of an operator can be lowered alone, and their fragments are those of the operator. -/
theorem halves_ofExpr (h : Rule.ofExpr registry constants source (.binary op a b) = .ok rule) :
    ∃ l r, Rule.ofExpr registry constants source a = .ok l ∧
      Rule.ofExpr registry constants source b = .ok r ∧ l.fragments <+: rule.fragments ∧
      (Halves.mk rule l r).Twins op := by
  obtain ⟨entry, u, hrun, rfl⟩ := Rule.ofExpr_ok h
  rw [lower] at hrun
  obtain ⟨c, o, hrunl, hrun⟩ := bind_ok hrun
  obtain ⟨d, u', hrunr, hrun⟩ := bind_ok hrun
  cases hrun
  -- the left side is its own twin, the right one that of its lowering from nothing
  obtain ⟨c', o', hrunl', hl, -, hsl, hc⟩ :=
    Rule.lowered_alone ⟨registry, True, 0⟩ rfl (fun _ => trivial) rfl hrunl
  rw [hrunl] at hrunl'
  cases hrunl'
  obtain ⟨d', v, hrunr', hlr, hr, hsr, hd⟩ :=
    Rule.lowered_alone ⟨registry, True, o.fragments.length⟩ rfl (fun _ => trivial) rfl hrunr
  let l : Rule := ⟨source, c, o.fragments, constants, registry, o.warnings⟩
  let r : Rule := ⟨source, d', v.fragments, constants, registry, v.warnings⟩
  have hnames : (u.fragments.map Fragment.name).Nodup := (hl.trans hlr).names
  refine ⟨l, r, ?_, ?_, hlr.keeps_fragments, rfl, rfl, hsr.length,
    (hsl.twins hl hl).extended hlr.keeps_fragments hnames, hsr.twins (hl.trans hlr) hr, c, d, rfl,
    hc.mono (Site.before_extended _ hlr.keeps_fragments), hd⟩
  · rw [Rule.ofExpr, hrunl]
    rfl
  · rw [Rule.ofExpr, hrunr']
    rfl

/-! ### Running -/

/-- The copies have the same states on both sides. -/
def Site.Mirrors (site : Site) (s t : Session) : Prop :=
  ∀ (j : Nat) (f g : Fragment), site.left[site.offset + j]? = some f → site.right[j]? = some g →
    (f.stateIn s.env).Similar True (g.stateIn t.env) ∧ g.body.Fits (g.stateIn t.env)

/-- No state changes but those of the left copy. -/
def Site.Keeps (site : Site) (s t : Session) : Prop :=
  ∀ name, (∀ j x y, site.Place j x y → x ≠ name) →
    t.env.states.get? name = s.env.states.get? name

namespace Site.Mirrors

variable {site other : Site} {s s' t : Session}

theorem agree (h : site.Mirrors s t) : Agree site True s.env.states t.env.states s t :=
  ⟨h _ _ _, fun _ => rfl, fun _ => rfl⟩

theorem frame (h : site.Mirrors s t) (hs : other.Keeps s s')
    (hapart : ∀ j k x y x' y', other.Place j x y → site.Place k x' y' → x ≠ x') :
    site.Mirrors s' t := by
  intro k f g hf hg
  have hplace := Site.Place.of_fragments hf hg
  rw [Fragment.stateIn, hs f.name fun j x y hx => hapart j k x y _ _ hx hplace]
  exact h k f g hf hg

end Site.Mirrors

/-- Errors that differ in the name of a fragment only. -/
def RunError.Alike (e e' : RunError) : Prop := e.anonymous = e'.anonymous

theorem RunError.Twin.alike {site : Site} {e e' : RunError} (h : RunError.Twin site e e') :
    e.Alike e' := by
  cases h with
  | startAfterEnd _ _ _ _ _ => rfl
  | calculation _ _ => rfl

/-- Code on the left of a site does what a matcher of its twin on the right does. -/
theorem code_feed {site : Site} (hw : site.Twins) {c : Code} {m : Matcher} {event : Event} {s t : Session}
    {x : Except RunError Value} (hm : m.rule.fragments = site.right)
    (hr : m.rule.registry = site.registry) (hc : CodeTwin site c m.rule.entry)
    (hs : site.Mirrors s m.session)
    (hrun : (evaluate c event.value (site.leftFrame event none)).run s = (x, t)) :
    site.Mirrors t (m.feed event).2.session ∧ site.Keeps s t ∧
      SameOutcome RunError.Alike Eq (x.map Value.asBool) (m.feed event).1.result := by
  obtain ⟨hagree, ho⟩ := evaluate_coupled hw hc event.value event none s m.session hs.agree
  have hframe : (⟨event, none, m.rule.fragments, m.rule.registry⟩ : Frame) =
      site.rightFrame event none := by
    rw [hm, hr]
    rfl
  rw [hrun, ← hframe] at hagree ho
  refine ⟨fun _ _ _ => hagree.states, fun _ => hagree.left_others, ?_⟩
  exact (ho.imp_error fun e e' he => he.alike).map fun v w hvw => congrArg Value.asBool hvw

variable {m l r : Matcher} {short : Bool} {c d : Code} {event : Event} {s t : Session}

theorem evaluate_decisive (hop : op.decisive? = some short) (c d : Code) (subject : Value)
    (frame : Frame) :
    evaluate (.binary op c d) subject frame = (do
      let l ← evaluate c subject frame
      if l.asBool = short then return .boolean short
      let r ← evaluate d subject frame
      return .boolean r.asBool) := by
  cases op with
  | or =>
    cases hop
    rfl
  | and =>
    cases hop
    rw [evaluate, Code.evaluate]
    congr 1
    funext l
    cases l.asBool <;> rfl
  | _ => cases hop

section

variable (hop : op.decisive? = some short) (hentry : m.rule.entry = .binary op c d)
include hop hentry

theorem feed_failed {e : RunError}
    (hc : (evaluate c event.value ⟨event, none, m.rule.fragments, m.rule.registry⟩).run m.session =
      (.error e, s)) :
    (m.feed event).1.result = .error e ∧ (m.feed event).2 = ⟨m.rule, s.env⟩ := by
  refine Matcher.feed_run ?_ (r := .error e)
  rw [hentry, evaluate_decisive hop, run_bind_error hc]

theorem feed_decided {v : Value}
    (hc : (evaluate c event.value ⟨event, none, m.rule.fragments, m.rule.registry⟩).run m.session =
      (.ok v, s)) (hv : v.asBool = short) :
    (m.feed event).1.result = .ok short ∧ (m.feed event).2 = ⟨m.rule, s.env⟩ := by
  refine Matcher.feed_run ?_ (r := .ok (.boolean short))
  rw [hentry, evaluate_decisive hop, run_bind_ok hc, if_pos hv]
  rfl

theorem feed_passed {v : Value} {x : Except RunError Value}
    (hc : (evaluate c event.value ⟨event, none, m.rule.fragments, m.rule.registry⟩).run m.session =
      (.ok v, s)) (hv : v.asBool ≠ short)
    (hd : (evaluate d event.value ⟨event, none, m.rule.fragments, m.rule.registry⟩).run s = (x, t)) :
    (m.feed event).1.result = x.map Value.asBool ∧ (m.feed event).2 = ⟨m.rule, t.env⟩ := by
  have hrun : (evaluate m.rule.entry event.value ⟨event, none, m.rule.fragments,
      m.rule.registry⟩).run m.session = (x.map fun w => .boolean w.asBool, t) := by
    rw [hentry, evaluate_decisive hop, run_bind_ok hc, if_neg hv]
    cases x with
    | error e => exact run_bind_error hd _
    | ok w => exact run_bind_ok hd _
  obtain ⟨hresult, hnext⟩ := Matcher.feed_run hrun
  refine ⟨hresult.trans ?_, hnext⟩
  cases x with
  | error e => rfl
  | ok w => rfl

end

structure Halves.Beside (h : Halves) (m l r : Matcher) : Prop where
  whole : m.rule = h.whole
  left : l.rule = h.left
  right : r.rule = h.right
  left_states : h.leftSite.Mirrors m.session l.session
  right_states : h.rightSite.Mirrors m.session r.session

variable {h : Halves}

theorem feed_joined (hw : h.Twins op) (hop : op.decisive? = some short) (hm : h.Beside m l r)
    (event : Event) :
    h.Beside (m.feed event).2 (l.feed event).2 (Matcher.joined short l r event).2 ∧
      SameOutcome RunError.Alike Eq (m.feed event).1.result (Matcher.joined short l r event).1 := by
  obtain ⟨whole, left, right⟩ := h
  obtain ⟨rfl, rfl, rfl, hls, hrs⟩ := hm
  obtain ⟨c, d, hentry, hc, hd⟩ := hw.entry
  rw [Matcher.joined]
  cases hleft : (evaluate c event.value ⟨event, none, m.rule.fragments, m.rule.registry⟩).run
      m.session with
  | mk x s =>
    obtain ⟨hls', hkept, hlo⟩ := code_feed hw.left rfl hw.left_registry hc hls hleft
    -- what the left side has done is nothing to the states of the right one
    have hrs' := hrs.frame hkept fun _ _ _ _ _ _ => hw.apart
    generalize (l.feed event).1.result = answer at hlo ⊢
    cases x with
    | error e =>
      obtain ⟨hresult, hnext⟩ := feed_failed hop hentry hleft
      rw [hresult, hnext]
      cases hlo with
      | error he => exact ⟨⟨rfl, rfl, rfl, hls', hrs'⟩, .error he⟩
    | ok v =>
      cases hlo with
      | ok hv =>
        subst hv
        by_cases hshort : v.asBool = short
        · obtain ⟨hresult, hnext⟩ := feed_decided hop hentry hleft hshort
          rw [hresult, hnext]
          simp only [hshort, if_true]
          exact ⟨⟨rfl, rfl, rfl, hls', hrs'⟩, .ok rfl⟩
        · simp only [hshort, if_false]
          cases hright : (evaluate d event.value ⟨event, none, m.rule.fragments,
              m.rule.registry⟩).run s with
          | mk y t =>
            obtain ⟨hrs'', hkept', hro⟩ := code_feed hw.right rfl hw.right_registry hd hrs' hright
            have hls'' := hls'.frame hkept' fun _ _ _ _ _ _ hr hl => (hw.apart hl hr).symm
            obtain ⟨hresult, hnext⟩ := feed_passed hop hentry hleft hshort hright
            rw [hresult, hnext]
            exact ⟨⟨rfl, rfl, rfl, hls'', hrs''⟩, hro⟩

theorem joined_right (event : Event) :
    (Matcher.joined short l r event).2 =
      if (l.feed event).1.result = .ok (!short) then (r.feed event).2 else r := by
  rw [Matcher.joined]
  cases (l.feed event).1.result with
  | error e => simp only [reduceCtorEq, if_false]
  | ok b => cases b <;> cases short <;> rfl

theorem after_joined (hw : h.Twins op) (hop : op.decisive? = some short) (hm : h.Beside m l r)
    (events : List Event) :
    h.Beside (m.after events) (l.after events) (r.after (l.undecided short events)) := by
  induction events generalizing m l r with
  | nil => exact hm
  | cons e es ih =>
    have hstep := (feed_joined hw hop hm e).1
    rw [joined_right] at hstep
    have hrest := ih hstep
    rw [Matcher.undecided]
    by_cases hpassed : (l.feed e).1.result = .ok (!short)
    · simp only [hpassed, if_true] at hrest ⊢
      exact hrest
    · simp only [hpassed, if_false] at hrest ⊢
      exact hrest

/-- A matcher of a logical operator says what matchers of its sides say one after the other: the left one
of all events, the right one of those that the left one does not decide. The states of the fragments are
those of the two matchers. The rule of a compiled source is one of these, by `Rule.of_selected`. -/
theorem logical_composed
    (h : Rule.ofExpr registry constants source (.binary op a b) = .ok rule)
    (hop : op.decisive? = some short) :
    ∃ left right, Rule.ofExpr registry constants source a = .ok left ∧
      Rule.ofExpr registry constants source b = .ok right ∧ left.fragments <+: rule.fragments ∧
      rule.fragments.length = left.fragments.length + right.fragments.length ∧
      ∀ events,
        let m := rule.matcher.after events
        let l := left.matcher.after events
        let r := right.matcher.after (left.matcher.undecided short events)
        (∀ event, SameOutcome RunError.Alike Eq (m.feed event).1.result
          (Matcher.joined short l r event).1) ∧
        (∀ (j : Nat) (f g : Fragment), rule.fragments[j]? = some f → left.fragments[j]? = some g →
          f.stateIn m.env = g.stateIn l.env) ∧
        ∀ (j : Nat) (f g : Fragment), rule.fragments[left.fragments.length + j]? = some f →
          right.fragments[j]? = some g → f.stateIn m.env = g.stateIn r.env := by
  obtain ⟨left, right, ha, hb, hfirst, hw⟩ := halves_ofExpr h
  refine ⟨left, right, ha, hb, hfirst, hw.length, fun events => ?_⟩
  have hfresh : (Halves.mk rule left right).Beside rule.matcher left.matcher right.matcher :=
    ⟨rfl, rfl, rfl, fun _ _ _ => (Agree.fresh hw.left True rfl rfl).states,
      fun _ _ _ => (Agree.fresh hw.right True rfl rfl).states⟩
  have hbeside := after_joined hw hop hfresh events
  refine ⟨fun event => (feed_joined hw hop hbeside event).2, fun j f g hf hg => ?_, fun j f g hf hg => ?_⟩
  · refine (hbeside.left_states j f g ?_ hg).1.eq
    rw [← hf, Halves.leftSite, Nat.zero_add]
  · exact (hbeside.right_states j f g hf hg).1.eq

/-- Two counters: the right one holds first, and it has seen all events since the left one has not held. -/
theorem logical_composed_counters :
    ∃ rule left right : Rule, compile .empty [] "count(==1,2)||count(==2,2)" = .ok rule ∧
      rule.matcher.results [⟨"a", .integer 2, 0⟩, ⟨"b", .integer 1, 1⟩, ⟨"c", .integer 2, 2⟩] =
        [.ok false, .ok false, .ok true] ∧
      rule.fragments.length = left.fragments.length + right.fragments.length ∧
      SameOutcome RunError.Alike Eq
        ((rule.matcher.after [⟨"a", .integer 2, 0⟩, ⟨"b", .integer 1, 1⟩]).feed
          ⟨"c", .integer 2, 2⟩).1.result
        (Matcher.joined true (left.matcher.after [⟨"a", .integer 2, 0⟩, ⟨"b", .integer 1, 1⟩])
          (right.matcher.after
            (left.matcher.undecided true [⟨"a", .integer 2, 0⟩, ⟨"b", .integer 1, 1⟩]))
          ⟨"c", .integer 2, 2⟩).1 := by
  obtain ⟨rule, h, hresults⟩ := exists_of_any (p := fun rule =>
      rule.matcher.results [⟨"a", .integer 2, 0⟩, ⟨"b", .integer 1, 1⟩, ⟨"c", .integer 2, 2⟩] ==
        [.ok false, .ok false, .ok true])
    (r := compile .empty [] "count(==1,2)||count(==2,2)") (by decide +kernel)
  obtain ⟨k, a, b, hs, -⟩ := selected_sides .empty [] "count(==1,2)||count(==2,2)" .or
    (fun _ _ => true) (by decide +kernel)
  obtain ⟨left, right, -, -, -, hlength, hruns⟩ := logical_composed (Rule.of_selected h hs) rfl
  exact ⟨rule, left, right, h, beq_iff_eq.mp hresults, hlength, (hruns _).1 _⟩

end EventRules
