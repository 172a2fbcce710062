import Mathlib.Data.List.Nodup
import EventRules.Proofs.Lowering.Ownership
import EventRules.Proofs.Run.CallLog

/-!
# The footprint of a part of an evaluation

What a part of an evaluation does to the session, said of the calls that stand in it: it adds its calls
to the trace, leaves the constants, and writes the states of fragments that it can reach only. A state
is lost only to an arrow that answers true meanwhile and owns the fragment. And apart from what is
called for the condition of a hit rate, which is asked for every retained event, a fragment is not
called oftener than it is referred to.
-/

namespace EventRules
set_option autoImplicit false

open Routine

/-! ### Fragments within reach -/

/-- The name of a fragment that is called, directly or by one another. -/
def Called (table : List Fragment) (refs : List Reference) (name : String) : Prop :=
  ∃ j f, Reaches table refs j ∧ table[j]? = some f ∧ f.name = name

/-- A fragment that is called for the condition of a hit rate. -/
def Repeated (table : List Fragment) (name : String) : Prop :=
  ∃ f ∈ table, ∃ plan condition, f.body = .chain plan ∧ plan.aggregation = .hitRate condition ∧
    Called table condition.references name

/-- The names that the fragment of this name refers to. -/
def callees (table : List Fragment) (name : String) : List String :=
  match table.find? fun f => f.name == name with
  | some f => f.references.map Reference.name
  | none => []

/-- An arrow of this name that owns the fragment. -/
def OwnedBy (table : List Fragment) (arrow name : String) : Prop :=
  ∃ f ∈ table, f.name = arrow ∧ ∃ plan, f.body = .arrow plan ∧ name ∈ plan.owned

section

variable {table : List Fragment} {refs refs' : List Reference} {i j : Nat} {f : Fragment} {x : String}

/-- What contains the calls and is closed under calling contains all that is reached. -/
theorem Reaches.closed {P : Nat → Prop} (h : Reaches table refs j) (hrefs : ∀ r ∈ refs, P r.index)
    (hstep : ∀ i f, table[i]? = some f → P i → ∀ r ∈ f.references, P r.index) : P j := by
  induction h with
  | direct hr => exact hrefs _ hr
  | within _ hf hr ih => exact hstep _ _ hf ih _ hr

theorem Reaches.mono (h : Reaches table refs j) (hsub : refs ⊆ refs') : Reaches table refs' j :=
  h.closed (fun _ hr => .direct (hsub hr)) fun _ _ hf hi _ hr => .within hi hf hr

theorem Reaches.inside (h : Reaches table refs i) (hf : table[i]? = some f)
    (hj : Reaches table f.references j) : Reaches table refs j :=
  hj.closed (fun _ hr => .within h hf hr) fun _ _ hg hk _ hr => .within hk hg hr

theorem Called.mono (h : Called table refs x) (hsub : refs ⊆ refs') : Called table refs' x := by
  obtain ⟨j, f, hj, hf, hx⟩ := h
  exact ⟨j, f, hj.mono hsub, hf, hx⟩

theorem Called.inside (hi : Reaches table refs i) (hf : table[i]? = some f)
    (h : Called table f.references x) : Called table refs x := by
  obtain ⟨j, g, hj, hg, hx⟩ := h
  exact ⟨j, g, hi.inside hf hj, hg, hx⟩

theorem callees_of_mem (hnames : (table.map Fragment.name).Nodup) (hf : f ∈ table) :
    callees table f.name = f.references.map Reference.name := by
  have hfound : (table.find? fun g => g.name == f.name).isSome :=
    List.find?_isSome.mpr ⟨f, hf, beq_self_eq_true f.name⟩
  obtain ⟨g, hg⟩ := Option.isSome_iff_exists.mp hfound
  have hname : g.name = f.name := by simpa using List.find?_some hg
  obtain rfl := List.inj_on_of_nodup_map hnames (List.mem_of_find?_eq_some hg) hf hname
  rw [callees, hg]

end

/-! ### Footprints -/

def TraceEntry.called? : TraceEntry → Option String
  | called fragment => some fragment
  | judged .. => none

/-- The fragments that are called in a log. -/
def logged (log : List CallRecord) : List String := log.map CallRecord.fragment

/-- From the session `s` the calls `refs` led to `t`, with the calls in the log; `freed` states may be lost
besides those that belong to an arrow in the log. -/
structure Footprint (table : List Fragment) (freed : String → Prop) (refs : List Reference)
    (log : List CallRecord) (s t : Session) : Prop where
  trace : ∃ entries, t.trace = entries ++ s.trace ∧
    entries.reverse.filterMap TraceEntry.called? = logged log
  constants : t.env.constants = s.env.constants
  reached : ∀ k ∈ log, Called table refs k.fragment
  seldom : ∀ x, ¬Repeated table x →
    (logged log).count x ≤
      (refs.map Reference.name).count x + ((logged log).flatMap (callees table)).count x
  kept : ∀ x, ¬Called table refs x → t.env.states.get? x = s.env.states.get? x
  lost : ∀ x, s.env.states.get? x ≠ none → t.env.states.get? x = none →
    freed x ∨ ∃ k ∈ log, k.answer = .ok true ∧ OwnedBy table k.fragment x

theorem resetStates_kept (owned : List String) (env : Environment) :
    (owned.foldl Environment.resetState env).constants = env.constants ∧
      ∀ x, x ∉ owned →
        (owned.foldl Environment.resetState env).states.get? x = env.states.get? x := by
  induction owned generalizing env with
  | nil => exact ⟨rfl, fun _ _ => rfl⟩
  | cons y ys ih =>
    obtain ⟨hconstants, hkept⟩ := ih (env.resetState y)
    refine ⟨hconstants, ?_⟩
    intro x hx
    obtain ⟨hne, hys⟩ := List.ne_and_not_mem_of_not_mem_cons hx
    exact (hkept x hys).trans (Keyed.get_remove_of_ne env.states hne)

namespace Footprint

variable {table : List Fragment} {freed freed' : String → Prop} {refs refs' : List Reference}
  {log log' : List CallRecord} {s t u : Session}

theorem refl (table : List Fragment) (freed : String → Prop) (s : Session) :
    Footprint table freed [] [] s s where
  trace := ⟨[], rfl, rfl⟩
  constants := rfl
  reached := fun _ hk => absurd hk List.not_mem_nil
  seldom := fun _ _ => Nat.zero_le _
  kept := fun _ _ => rfl
  lost := fun _ hs ht => absurd ht hs

theorem trans (h : Footprint table freed refs log s t) (h' : Footprint table freed refs' log' t u) :
    Footprint table freed (refs ++ refs') (log ++ log') s u where
  trace := by
    obtain ⟨entries, ht, hlog⟩ := h.trace
    obtain ⟨entries', hu, hlog'⟩ := h'.trace
    refine ⟨entries' ++ entries, by rw [hu, ht, List.append_assoc], ?_⟩
    rw [List.reverse_append, List.filterMap_append, hlog, hlog', logged, logged, logged, List.map_append]
  constants := h'.constants.trans h.constants
  reached := by
    intro k hk
    rcases List.mem_append.mp hk with hk | hk
    · exact (h.reached k hk).mono (List.subset_append_left _ _)
    · exact (h'.reached k hk).mono (List.subset_append_right _ _)
  seldom := by
    intro x hx
    have hfirst := h.seldom x hx
    have hsecond := h'.seldom x hx
    simp only [logged, List.map_append, List.count_append, List.flatMap_append] at hfirst hsecond ⊢
    omega
  kept := by
    intro x hx
    rw [h'.kept x fun hc => hx (hc.mono (List.subset_append_right _ _)),
      h.kept x fun hc => hx (hc.mono (List.subset_append_left _ _))]
  lost := by
    intro x hs hu
    by_cases ht : t.env.states.get? x = none
    · rcases h.lost x hs ht with hfreed | ⟨k, hk, howned⟩
      · exact .inl hfreed
      · exact .inr ⟨k, List.mem_append_left _ hk, howned⟩
    · rcases h'.lost x ht hu with hfreed | ⟨k, hk, howned⟩
      · exact .inl hfreed
      · exact .inr ⟨k, List.mem_append_right _ hk, howned⟩

/-- More may be referred to, and more be freed. -/
theorem weaken (h : Footprint table freed refs log s t) (hrefs : refs.Sublist refs')
    (hfreed : ∀ x, freed x → freed' x) : Footprint table freed' refs' log s t where
  trace := h.trace
  constants := h.constants
  reached := fun k hk => (h.reached k hk).mono hrefs.subset
  seldom := by
    intro x hx
    have hcount := (hrefs.map Reference.name).count_le x
    have hseldom := h.seldom x hx
    omega
  kept := fun x hx => h.kept x fun hc => hx (hc.mono hrefs.subset)
  lost := fun x hs ht => (h.lost x hs ht).imp_left (hfreed x)

/-- What is lost to arrows in the log only may be said to be freed as well. -/
theorem freeing (h : Footprint table (fun _ => False) refs log s t) : Footprint table freed refs log s t :=
  h.weaken (List.Sublist.refl refs) fun _ => False.elim

/-- Calls that belong to the condition of a hit rate may be made as often as one likes. -/
theorem repeated (h : Footprint table freed refs log s t) (hsub : refs ⊆ refs')
    (hrepeated : ∀ x, Called table refs' x → Repeated table x) :
    Footprint table freed refs' log s t where
  trace := h.trace
  constants := h.constants
  reached := fun k hk => (h.reached k hk).mono hsub
  seldom := by
    intro x hx
    have hnone : x ∉ logged log := by
      intro hmem
      obtain ⟨k, hk, rfl⟩ := List.mem_map.mp hmem
      exact hx (hrepeated _ ((h.reached k hk).mono hsub))
    rw [List.count_eq_zero_of_not_mem hnone]
    exact Nat.zero_le _
  kept := fun x hx => h.kept x fun hc => hx (hc.mono hsub)
  lost := h.lost

theorem judged (h : Footprint table freed refs log s t) (chain : String) (count : Nat)
    (aggregate : Value) (verdict : Bool) :
    Footprint table freed refs log s ⟨t.env, .judged chain count aggregate verdict :: t.trace⟩ where
  trace := by
    obtain ⟨entries, ht, hlog⟩ := h.trace
    refine ⟨.judged chain count aggregate verdict :: entries, by rw [ht]; rfl, ?_⟩
    rw [List.reverse_cons, List.filterMap_append, hlog]
    exact List.append_nil _
  constants := h.constants
  reached := h.reached
  seldom := h.seldom
  kept := h.kept
  lost := h.lost

theorem reset {owned : List String} (h : Footprint table freed refs log s t)
    (howned : ∀ x ∈ owned, Called table refs x) :
    Footprint table (fun x => freed x ∨ x ∈ owned) refs log s
      ⟨owned.foldl Environment.resetState t.env, t.trace⟩ where
  trace := h.trace
  constants := (resetStates_kept owned t.env).1.trans h.constants
  reached := h.reached
  seldom := h.seldom
  kept := by
    intro x hx
    exact ((resetStates_kept owned t.env).2 x fun ho => hx (howned x ho)).trans (h.kept x hx)
  lost := by
    intro x hs ht
    by_cases ho : x ∈ owned
    · exact .inl (.inr ho)
    · exact (h.lost x hs (((resetStates_kept owned t.env).2 x ho).symm.trans ht)).imp_left .inl

/-- A call of a fragment around what its body does while the state of the fragment is out. -/
theorem call {i : Nat} {f : Fragment} {answer : Except RunError Bool} {state : FragmentState}
    (hnames : (table.map Fragment.name).Nodup) (hf : table[i]? = some f)
    (h : Footprint table (fun x => answer = .ok true ∧ OwnedBy table f.name x) f.references log
      ⟨s.env.resetState f.name, .called f.name :: s.trace⟩ t) :
    Footprint table (fun _ => False) [⟨f.name, i⟩] (⟨f.name, answer⟩ :: log) s
      { t with env := { t.env with states := t.env.states.put f.name state } } := by
  have hi : Reaches table [⟨f.name, i⟩] i :=
    Reaches.direct (r := ⟨f.name, i⟩) (List.mem_singleton_self _)
  have hself : Called table [⟨f.name, i⟩] f.name := ⟨i, f, hi, hf, rfl⟩
  constructor
  · obtain ⟨entries, ht, hlog⟩ := h.trace
    refine ⟨entries ++ [.called f.name], by rw [List.append_assoc]; exact ht, ?_⟩
    rw [List.reverse_append, List.filterMap_append, hlog]
    rfl
  · exact h.constants
  · intro k hk
    rcases List.mem_cons.mp hk with rfl | hk
    · exact hself
    · exact (h.reached k hk).inside hi hf
  · intro x hx
    have hbody := h.seldom x hx
    simp only [logged, List.map_cons, List.map_nil, List.flatMap_cons, List.count_append,
      callees_of_mem hnames (List.mem_of_getElem? hf), List.count_cons] at hbody ⊢
    omega
  · intro x hx
    have hne : x ≠ f.name := by
      rintro rfl
      exact hx hself
    have hbody := h.kept x fun hc => hx (hc.inside hi hf)
    exact (Keyed.get_put_of_ne _ hne state).trans
      (hbody.trans (Keyed.get_remove_of_ne s.env.states hne))
  · intro x hs ht
    -- the state of the fragment itself is put back, so another one is lost, and inside the body
    have hne : x ≠ f.name := by
      rintro rfl
      rw [Keyed.get_put_self] at ht
      cases ht
    rw [Keyed.get_put_of_ne _ hne] at ht
    rw [← Keyed.get_remove_of_ne _ hne] at hs
    rcases h.lost x hs ht with ⟨htrue, howned⟩ | ⟨k, hk, howned⟩
    · exact .inr ⟨_, List.mem_cons_self, htrue, howned⟩
    · exact .inr ⟨k, List.mem_cons_of_mem _ hk, howned⟩

end Footprint

end EventRules
