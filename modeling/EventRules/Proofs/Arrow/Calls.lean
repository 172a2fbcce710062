import EventRules.Proofs.Matching.Linearity
import EventRules.Proofs.Run.Preserving

/-!
# The calls of an arrow

An evaluation, seen from one of the arrows, comes from session to session by the calls of that arrow and
by what does not concern it: the calls of other fragments, their states and the verdicts of chains. No
other arrow owns it, and so its state only changes in its calls.
-/

namespace EventRules
set_option autoImplicit false

open Routine

/-- A call of an arrow with the sessions at its two ends. -/
structure ArrowCall where
  /-- how deep the calls inside it may nest -/
  depth : Nat
  frame : Frame
  begun : Session
  answer : Except RunError Bool
  ended : Session

namespace ArrowCall

/-- The call is the run of the fragment that begins there. -/
def Made (base : Frame) (f : Fragment) (c : ArrowCall) : Prop :=
  base.Like c.frame ∧ (f.run (Code.evaluate (callFragment c.depth)) c.frame).run c.begun = (c.answer, c.ended)

end ArrowCall

/-- The fragment is not called between the sessions, and its state stays the same. -/
structure Quiet (name : String) (s t : Session) : Prop where
  kept : t.env.states.get? name = s.env.states.get? name
  uncalled : ∃ entries, t.trace = entries ++ s.trace ∧ .called name ∉ entries

/-- From the session `s` on, the fragment has been called so up to the other session. -/
inductive Calls (base : Frame) (f : Fragment) (s : Session) : List ArrowCall → Session → Prop
  | start : Calls base f s [] s
  | quiet {calls : List ArrowCall} {t u : Session} (h : Calls base f s calls t) (hquiet : Quiet f.name t u) :
    Calls base f s calls u
  | call {calls : List ArrowCall} {c : ArrowCall} (h : Calls base f s calls c.begun) (hmade : c.Made base f) :
    Calls base f s (calls ++ [c]) c.ended

/-- Every fragment of this name in the table is the arrow, and no arrow owns it. -/
structure Unowned (table : List Fragment) (f : Fragment) : Prop where
  unique : ∀ g ∈ table, g.name = f.name → g = f
  unowned : ∀ g ∈ table, ∀ plan, g.body = .arrow plan → f.name ∉ plan.owned

theorem WellPlaced.unowned {table : List Fragment} (h : WellPlaced table)
    (hnames : (table.map Fragment.name).Nodup) {f : Fragment} (hf : f ∈ table) (harrow : f.body.isArrow = true) :
    Unowned table f where
  unique := fun _ hg hname => List.inj_on_of_nodup_map hnames hg hf hname
  unowned := by
    intro g hg plan hplan hmem
    obtain ⟨i, hi⟩ := List.mem_iff_getElem?.mp hg
    obtain ⟨-, hreached, hfree⟩ := h.ownsReached hnames hi hplan
    obtain ⟨j, g', hj, hg', hname⟩ := (hreached f.name).mp hmem
    have hnone := hfree j g' hj hg'
    rw [List.inj_on_of_nodup_map hnames (List.mem_of_getElem? hg') hf hname, harrow] at hnone
    cases hnone

section

variable {base : Frame} {f : Fragment}

theorem Calls.aboutOne (h : Unowned base.fragments f) (s : Session) :
    AboutOne base.fragments f.name fun t => ∃ calls, Calls base f s calls t where
  judged := by
    rintro chain count reduced verdict t ⟨calls, ht⟩
    exact ⟨calls, ht.quiet ⟨rfl, [_], rfl, by simp⟩⟩
  entered := by
    rintro other t hother ⟨calls, ht⟩
    have hkept := Keyed.get_remove_of_ne t.env.states hother.symm
    exact ⟨calls, ht.quiet ⟨hkept, [.called other], rfl, by simpa using hother.symm⟩⟩
  put := by
    rintro other state t hother ⟨calls, ht⟩
    have hkept := Keyed.get_put_of_ne t.env.states hother.symm state
    exact ⟨calls, ht.quiet ⟨hkept, [], rfl, List.not_mem_nil⟩⟩
  freed := by
    intro g hg plan hplan _
    refine .of_runs ?_
    rintro t ⟨calls, ht⟩
    have hkept := (resetStates_kept plan.owned t.env).2 f.name (h.unowned g hg plan hplan)
    exact ⟨calls, ht.quiet ⟨hkept, [], rfl, List.not_mem_nil⟩⟩

/-- Evaluation calls the arrow some times, and does nothing else to it. -/
theorem evaluate_calls (h : Unowned base.fragments f) (code : Code) (subject : Value) (s : Session) :
    ∃ calls, Calls base f s calls ((evaluate code subject base).run s).2 := by
  have hown : ∀ g ∈ base.fragments, g.name = f.name → ∀ depth frame, base.Like frame →
      Routine.Keeps (fun t => ∃ calls, Calls base f s calls t) (g.run (Code.evaluate (callFragment depth)) frame) := by
    intro g hg hname depth frame hframe
    obtain rfl := h.unique g hg hname
    refine .of_runs ?_
    rintro t ⟨calls, ht⟩
    cases hrun : (g.run (Code.evaluate (callFragment depth)) frame).run t with
    | mk answer u => exact ⟨_, .call (c := ⟨depth, frame, t, answer, u⟩) ht ⟨hframe, hrun⟩⟩
  have hbase : base.Like base := ⟨base.anchor, rfl⟩
  exact (evaluate_preserves (Calls.aboutOne h s) hown code subject base hbase s ⟨[], .start⟩).1

end

end EventRules
