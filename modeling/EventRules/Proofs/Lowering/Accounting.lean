import EventRules.Proofs.Lowering.Elements
import EventRules.Proofs.Lowering.Reference

/-!
# Accounting for references

Lowering never drops a call and never doubles one. What a step holds when it begins, with one call of
each fragment that it adds, is what its answer and the added fragments hold in the end, up to order.
`AccountedAt` says this of one begun step, together with the rest that makes a table well placed; there
is one lemma for each way to put steps together, and one for a fragment that is named and emitted.
-/

namespace EventRules.Lowering
set_option autoImplicit false

open Routine

variable {α β : Type} {plain : Prop} {held : List Reference} {o u : Output}

/-- What a step comes to. If it is `plain` it adds no arrow, and `Q` holds of its answer. -/
structure Accounted (plain : Prop) (held : List Reference) (refs : α → List Reference) (Q : α → Prop)
    (o : Output) (r : Except LoweringError α × Output) : Prop where
  pending : r.2.pendingChain = o.pendingChain
  placed : WellPlaced r.2.fragments
  added : ∃ added, r.2.fragments = o.fragments ++ added ∧
    (plain → ∀ f ∈ added, f.body.isArrow = false) ∧
    ∀ a, r.1 = .ok a → Q a ∧
      (refs a ++ added.flatMap Fragment.references).Perm (held ++ oneEach o.fragments.length added)

/-- What the step `m`, begun from the output `o` with the calls `held`, comes to. -/
def AccountedAt (plain : Prop) (held : List Reference) (refs : α → List Reference) (Q : α → Prop)
    (m : Lower α) (o : Output) : Prop :=
  WellPlaced o.fragments → (∀ r ∈ held, r.Resolved o.fragments) →
    Accounted plain held refs Q o (m.run o)

def AlwaysAccounted (plain : Prop) (held : List Reference) (refs : α → List Reference) (Q : α → Prop)
    (m : Lower α) : Prop :=
  ∀ o, AccountedAt plain held refs Q m o

/-- What the answer holds can be called. -/
theorem resolved_of_perm {before added : List Fragment} {refs : List Reference}
    (hheld : ∀ r ∈ held, r.Resolved before)
    (h : (refs ++ added.flatMap Fragment.references).Perm (held ++ oneEach before.length added)) :
    ∀ r ∈ refs, r.Resolved (before ++ added) := by
  intro r hr
  have hmem := h.subset (List.mem_append_left _ hr)
  rcases List.mem_append.mp hmem with hmem | hmem
  · exact (hheld r hmem).append added
  · exact resolved_of_mem_oneEach hmem

namespace AccountedAt

variable {refs : α → List Reference} {Q : α → Prop} {m : Lower α}

theorem unchanged {r : Except LoweringError α}
    (hr : ∀ a, r = .ok a → Q a ∧ (refs a).Perm held) : AccountedAt plain held refs Q (ofExcept r) o := by
  intro hplaced _
  refine ⟨rfl, hplaced, [], ?_, ?_, ?_⟩
  · exact (List.append_nil _).symm
  · intro _ f hf
    simp at hf
  · intro a ha
    obtain ⟨hQ, hperm⟩ := hr a ha
    refine ⟨hQ, ?_⟩
    simpa using hperm

theorem pure {a : α} (hQ : Q a) (h : (refs a).Perm held) :
    AccountedAt plain held refs Q (Pure.pure a) o := by
  apply unchanged
  intro b hb
  cases hb
  exact ⟨hQ, h⟩

theorem fail (e : LoweringError) : AccountedAt plain held refs Q (Routine.fail e) o := by
  apply unchanged
  intro b hb
  cases hb

theorem bind {refs' : β → List Reference} {R : β → Prop} {f : α → Lower β}
    (h : AccountedAt plain held refs Q m o)
    (hf : ∀ a u, Q a → AccountedAt plain (refs a) refs' R (f a) u) :
    AccountedAt plain held refs' R (m >>= f) o := by
  intro hplaced hheld
  obtain ⟨hpending, hplaced', added, hadded, hplain, hok⟩ := h hplaced hheld
  rw [run_bind]
  cases hm : m.run o with
  | mk r u =>
    rw [hm] at hpending hplaced' hadded hok
    cases r with
    | error e =>
      refine ⟨hpending, hplaced', added, hadded, hplain, ?_⟩
      intro b hb
      cases hb
    | ok a =>
      obtain ⟨hQ, hperm⟩ := hok a rfl
      simp only at hadded
      have hresolved : ∀ r ∈ refs a, r.Resolved u.fragments := by
        rw [hadded]
        exact resolved_of_perm hheld hperm
      obtain ⟨hpending', hplaced'', added', hadded', hplain', hok'⟩ := hf a u hQ hplaced' hresolved
      refine ⟨hpending'.trans hpending, hplaced'', added ++ added', ?_, ?_, ?_⟩
      · rw [hadded', hadded, List.append_assoc]
      · intro hp f hmem
        rcases List.mem_append.mp hmem with hmem | hmem
        · exact hplain hp f hmem
        · exact hplain' hp f hmem
      · intro b hb
        obtain ⟨hR, hperm'⟩ := hok' b hb
        refine ⟨hR, ?_⟩
        rw [hadded, List.length_append] at hperm'
        rw [List.flatMap_append, oneEach_append, List.perm_iff_count]
        intro r
        have hcount := hperm.count_eq r
        have hcount' := hperm'.count_eq r
        simp only [List.count_append] at hcount hcount' ⊢
        omega

theorem ofExcept_bind {γ : Type} {r : Except LoweringError γ} {f : γ → Lower α}
    (h : ∀ c, r = .ok c → AccountedAt plain held refs Q (f c) o) :
    AccountedAt plain held refs Q (ofExcept r >>= f) o := by
  cases r with
  | error e => exact fail e
  | ok c => exact h c rfl

/-- Calls that are held besides are still held in the end. -/
theorem frame (kept : List Reference) (h : AccountedAt plain held refs Q m o) :
    AccountedAt plain (kept ++ held) (fun a => kept ++ refs a) Q m o := by
  intro hplaced hheld
  obtain ⟨hpending, hplaced', added, hadded, hplain, hok⟩ :=
    h hplaced fun r hr => hheld r (List.mem_append_right kept hr)
  refine ⟨hpending, hplaced', added, hadded, hplain, ?_⟩
  intro a ha
  obtain ⟨hQ, hperm⟩ := hok a ha
  refine ⟨hQ, ?_⟩
  rw [List.append_assoc, List.append_assoc]
  exact hperm.append_left kept

theorem imp {plain' : Prop} {R : α → Prop} (h : AccountedAt plain held refs Q m o)
    (hplain : plain' → plain) (hQ : ∀ a, Q a → R a) : AccountedAt plain' held refs R m o := by
  intro hplaced hheld
  obtain ⟨hpending, hplaced', added, hadded, hfree, hok⟩ := h hplaced hheld
  refine ⟨hpending, hplaced', added, hadded, fun hp => hfree (hplain hp), ?_⟩
  intro a ha
  exact ⟨hQ a (hok a ha).1, (hok a ha).2⟩

theorem of_perm {held' : List Reference} (hp : held.Perm held')
    (h : AccountedAt plain held' refs Q m o) : AccountedAt plain held refs Q m o := by
  intro hplaced hheld
  obtain ⟨hpending, hplaced', added, hadded, hplain, hok⟩ :=
    h hplaced fun r hr => hheld r (hp.mem_iff.mpr hr)
  refine ⟨hpending, hplaced', added, hadded, hplain, ?_⟩
  intro a ha
  exact ⟨(hok a ha).1, (hok a ha).2.trans (hp.symm.append_right _)⟩

theorem map {refs' : β → List Reference} {R : β → Prop} {f : α → β}
    (h : AccountedAt plain held refs Q m o) (hf : ∀ a, Q a → R (f a) ∧ (refs' (f a)).Perm (refs a)) :
    AccountedAt plain held refs' R (f <$> m) o := by
  refine bind h ?_
  intro a u hQ
  exact pure (hf a hQ).1 (hf a hQ).2

theorem warn (operator : String) :
    AccountedAt plain held (fun _ => held) (fun _ => True) (Lowering.warn operator) o := by
  intro hplaced _
  refine ⟨rfl, hplaced, [], (List.append_nil _).symm, ?_, ?_⟩
  · intro _ f hf
    simp at hf
  · intro _ _
    refine ⟨trivial, ?_⟩
    simp

protected theorem withinChain (h : AlwaysAccounted plain held refs Q m) (chain : String) :
    AccountedAt plain held refs Q (withinChain chain m) o := by
  intro hplaced hheld
  obtain ⟨-, hplaced', hadded⟩ := h { o with pendingChain := some chain } hplaced hheld
  exact ⟨rfl, hplaced', hadded⟩

end AccountedAt

/-- A fragment takes over what its body holds, and its call is held instead. -/
theorem named_accounted {stem : String} {body : String → Lower FragmentBody} {Q : FragmentBody → Prop}
    (h : ∀ name, AlwaysAccounted plain held FragmentBody.references Q (body name))
    (hpositive : ∀ b, Q b → b.Positive) (hplain : plain → ∀ b, Q b → b.isArrow = false)
    (howns : ∀ {name : String} {o u : Output} {plan : Arrow.Plan}, WellPlaced o.fragments →
      (∀ r ∈ held, r.Resolved o.fragments) → (body name).run o = (.ok (.arrow plan), u) →
        plan.Owns u.fragments) :
    AlwaysAccounted plain held Code.references (fun _ => True) (named stem body) := by
  intro o hplaced hheld
  rw [named_run]
  generalize s!"{stem}_{o.issued + 1}" = name
  have hbody := h name { o with issued := o.issued + 1 } hplaced hheld
  cases hm : (body name).run { o with issued := o.issued + 1 } with
  | mk r u =>
    rw [hm] at hbody
    obtain ⟨hpending, hplaced', added, hadded, hfree, hok⟩ := hbody
    simp only at hadded
    cases r with
    | error e =>
      refine ⟨hpending, hplaced', added, hadded, hfree, ?_⟩
      intro c hc
      cases hc
    | ok b =>
      obtain ⟨hQ, hperm⟩ := hok b rfl
      have hf : Fragment.Placed u.fragments ⟨name, b⟩ := by
        refine ⟨?_, hpositive b hQ, ?_⟩
        · rw [hadded]
          exact resolved_of_perm hheld hperm
        · rintro plan rfl
          exact howns (o := { o with issued := o.issued + 1 }) hplaced hheld hm
      refine ⟨hpending, hplaced'.concat hf, added ++ [⟨name, b⟩], ?_, ?_, ?_⟩
      · simp only [hadded, List.append_assoc]
      · intro hp f hmem
        rcases List.mem_append.mp hmem with hmem | hmem
        · exact hfree hp f hmem
        · obtain rfl := List.mem_singleton.mp hmem
          exact hplain hp b hQ
      · intro c hc
        cases hc
        refine ⟨trivial, ?_⟩
        -- the new call stands for the new fragment, whose calls are those that the body held
        rw [hadded, List.flatMap_append, oneEach_append, List.perm_iff_count]
        intro r
        have hcount := hperm.count_eq r
        simp only [Code.references, List.length_append, List.flatMap_cons, List.flatMap_nil,
          Fragment.references, oneEach_cons, oneEach_nil, List.count_append, List.count_nil] at hcount ⊢
        omega

end EventRules.Lowering
