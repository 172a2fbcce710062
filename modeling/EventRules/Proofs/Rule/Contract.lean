import EventRules.Routine

/-!
# Contracts of routines

What is said of the states that a routine keeps, of its answers and of its errors. A contract speaks
about every run, the failing ones included, and so a routine put together from parts under contract is
under contract itself.
-/

namespace EventRules.Routine
set_option autoImplicit false

variable {σ ε δ α β : Type} {I : σ → Prop} {E : ε → Prop} {D : δ → Prop} {S : α → Prop} {T : β → Prop}
  {r : Except ε α} {m : Routine σ ε α}

/-- An answer satisfies `S`, an error satisfies `E`. -/
def Answers (E : ε → Prop) (S : α → Prop) : Except ε α → Prop
  | .ok a => S a
  | .error e => E e

namespace Answers

theorem bind {f : α → Except ε β} (h : Answers E S r) (hf : ∀ a, S a → Answers E T (f a)) :
    Answers E T (r >>= f) := by
  cases r with
  | ok a => exact hf a h
  | error e => exact h

protected theorem mapError {f : ε → δ} (h : Answers E S r) (hf : ∀ e, E e → D (f e)) :
    Answers D S (r.mapError f) := by
  cases r with
  | ok a => exact h
  | error e => exact hf e h

theorem error_of {e : ε} (h : Answers E S r) (hr : r = .error e) : E e := by
  rw [hr] at h
  exact h

theorem answer_of {a : α} (h : Answers E S r) (hr : r = .ok a) : S a := by
  rw [hr] at h
  exact h

end Answers

/-- From a state that satisfies `I` the routine comes to one that does, with an answer that satisfies
`S` or an error that satisfies `E`. -/
def Meets (I : σ → Prop) (E : ε → Prop) (S : α → Prop) (m : Routine σ ε α) : Prop :=
  ∀ s, I s → I (m.run s).2 ∧ Answers E S (m.run s).1

namespace Meets

theorem pure {a : α} (h : S a) : Meets I E S (Pure.pure a : Routine σ ε α) := fun _ hs => ⟨hs, h⟩

theorem fail {e : ε} (h : E e) : Meets I E S (Routine.fail e : Routine σ ε α) := fun _ hs => ⟨hs, h⟩

protected theorem ofExcept (h : Answers E S r) : Meets I E S (ofExcept r : Routine σ ε α) := fun _ hs => ⟨hs, h⟩

theorem state : Meets I E I (Routine.state : Routine σ ε σ) := fun _ hs => ⟨hs, hs⟩

theorem change {f : σ → σ} (h : ∀ s, I s → I (f s)) :
    Meets I E (fun _ => True) (Routine.change f : Routine σ ε Unit) :=
  fun s hs => ⟨h s hs, trivial⟩

theorem bind {f : α → Routine σ ε β} (hm : Meets I E S m) (hf : ∀ a, S a → Meets I E T (f a)) :
    Meets I E T (m >>= f) := by
  intro s hs
  obtain ⟨ht, ha⟩ := hm s hs
  cases hrun : m.run s with
  | mk r t =>
    rw [hrun] at ht ha
    cases r with
    | ok a =>
      rw [run_bind_ok hrun]
      exact hf a ha t ht
    | error e =>
      rw [run_bind_error hrun]
      exact ⟨ht, ha⟩

/-- Nothing is said. -/
theorem anything (m : Routine σ ε α) : Meets (fun _ => True) (fun _ => True) (fun _ => True) m := by
  intro s _
  refine ⟨trivial, ?_⟩
  cases (m.run s).1 <;> trivial

theorem weaken {S' : α → Prop} (hm : Meets I E S m) (h : ∀ a, S a → S' a) : Meets I E S' m := by
  intro s hs
  obtain ⟨ht, ha⟩ := hm s hs
  refine ⟨ht, ?_⟩
  cases hr : (m.run s).1 with
  | ok a => exact h a (ha.answer_of hr)
  | error e => exact ha.error_of hr

theorem map {f : α → β} (hm : Meets I E S m) (hf : ∀ a, S a → T (f a)) : Meets I E T (f <$> m) :=
  hm.bind fun a ha => pure (hf a ha)

/-- A routine that is run for its effect only. -/
theorem followed {n : Routine σ ε β} (hm : Meets I E S m) (hn : Meets I E T n) :
    Meets I E T (m >>= fun _ => n) :=
  hm.bind fun _ _ => hn

protected theorem repeatWhile {more : σ → Bool} {item : Routine σ ε α} (h : Meets I E S item) (n : Nat) :
    Meets I E (fun as => ∀ a ∈ as, S a) (repeatWhile more item n) := by
  induction n with
  | zero => exact pure nofun
  | succ n ih =>
    unfold repeatWhile
    apply state.bind
    intro s _
    split
    · apply h.bind
      intro a ha
      apply ih.bind
      intro as has
      exact pure (List.forall_mem_cons.mpr ⟨ha, has⟩)
    · exact pure nofun

end Meets

/-- Every run, the failing ones included, keeps `I`, and nothing is said of answers and errors. -/
abbrev Keeps (I : σ → Prop) (m : Routine σ ε α) : Prop := Meets I (fun _ => True) (fun _ => True) m

namespace Keeps

theorem of_runs (h : ∀ s, I s → I (m.run s).2) : Keeps I m := by
  intro s hs
  refine ⟨h s hs, ?_⟩
  cases (m.run s).1 <;> trivial

protected theorem ofExcept (r : Except ε α) : Keeps I (ofExcept r : Routine σ ε α) := of_runs fun _ => id

theorem fail (e : ε) : Keeps I (Routine.fail e : Routine σ ε α) := Meets.fail trivial

theorem pure (a : α) : Keeps I (Pure.pure a : Routine σ ε α) := Meets.pure trivial

theorem bind {f : α → Routine σ ε β} (hm : Keeps I m) (hf : ∀ a, Keeps I (f a)) : Keeps I (m >>= f) :=
  Meets.bind hm fun a _ => hf a

theorem ite {p : Prop} [Decidable p] {m' : Routine σ ε α} (h : Keeps I m) (h' : Keeps I m') :
    Keeps I (if p then m else m') := by
  split
  · exact h
  · exact h'

end Keeps

end EventRules.Routine
