import EventRules.Session

/-!
# Coupled routines

Two routines are coupled when, started in related states, they end in related states and with related
answers or related errors. The relation between the states holds throughout, and so a routine put
together from coupled parts is coupled.
-/

namespace EventRules
set_option autoImplicit false

/-- Related answers or related errors. -/
inductive SameOutcome {ε δ α β : Type} (E : ε → δ → Prop) (Q : α → β → Prop) :
    Except ε α → Except δ β → Prop where
  | ok {a : α} {b : β} : Q a b → SameOutcome E Q (.ok a) (.ok b)
  | error {e : ε} {d : δ} : E e d → SameOutcome E Q (.error e) (.error d)

namespace SameOutcome

variable {ε δ α β α' β' : Type} {E : ε → δ → Prop} {Q : α → β → Prop} {r : Except ε α} {q : Except δ β}

theorem map {R : α' → β' → Prop} {f : α → α'} {g : β → β'} (h : SameOutcome E Q r q)
    (hf : ∀ a b, Q a b → R (f a) (g b)) : SameOutcome E R (r.map f) (q.map g) := by
  cases h with
  | ok h => exact .ok (hf _ _ h)
  | error h => exact .error h

theorem imp {R : α → β → Prop} (h : SameOutcome E Q r q) (hf : ∀ a b, Q a b → R a b) :
    SameOutcome E R r q := by
  cases h with
  | ok h => exact .ok (hf _ _ h)
  | error h => exact .error h

theorem imp_error {D : ε → δ → Prop} (h : SameOutcome E Q r q) (he : ∀ e d, E e d → D e d) :
    SameOutcome D Q r q := by
  cases h with
  | ok h => exact .ok h
  | error h => exact .error (he _ _ h)

end SameOutcome

namespace Routine

variable {σ τ ε δ α β α' β' : Type} {S : σ → τ → Prop} {E : ε → δ → Prop} {Q : α → β → Prop}
  {m : Routine σ ε α} {n : Routine τ δ β}

def Coupled (S : σ → τ → Prop) (E : ε → δ → Prop) (Q : α → β → Prop) (m : Routine σ ε α)
    (n : Routine τ δ β) : Prop :=
  ∀ s t, S s t → S (m.run s).2 (n.run t).2 ∧ SameOutcome E Q (m.run s).1 (n.run t).1

namespace Coupled

theorem pure {a : α} {b : β} (h : Q a b) :
    Coupled S E Q (Pure.pure a : Routine σ ε α) (Pure.pure b : Routine τ δ β) :=
  fun _ _ hs => ⟨hs, .ok h⟩

theorem fail {e : ε} {d : δ} (h : E e d) :
    Coupled S E Q (Routine.fail e : Routine σ ε α) (Routine.fail d : Routine τ δ β) :=
  fun _ _ hs => ⟨hs, .error h⟩

protected theorem ofExcept {r : Except ε α} {q : Except δ β} (h : SameOutcome E Q r q) :
    Coupled S E Q (ofExcept r : Routine σ ε α) (ofExcept q : Routine τ δ β) :=
  fun _ _ hs => ⟨hs, h⟩

theorem state : Coupled S E S (Routine.state : Routine σ ε σ) (Routine.state : Routine τ δ τ) :=
  fun _ _ hs => ⟨hs, .ok hs⟩

theorem change {f : σ → σ} {g : τ → τ} (h : ∀ s t, S s t → S (f s) (g t)) :
    Coupled S E (fun _ _ => True) (Routine.change f : Routine σ ε Unit)
      (Routine.change g : Routine τ δ Unit) :=
  fun s t hs => ⟨h s t hs, .ok trivial⟩

theorem bind {R : α' → β' → Prop} {f : α → Routine σ ε α'} {g : β → Routine τ δ β'}
    (h : Coupled S E Q m n) (hf : ∀ a b, Q a b → Coupled S E R (f a) (g b)) :
    Coupled S E R (m >>= f) (n >>= g) := by
  intro s t hs
  obtain ⟨hs', ho⟩ := h s t hs
  rw [run_bind, run_bind]
  cases hm : m.run s with
  | mk r s' =>
    cases hn : n.run t with
    | mk q t' =>
      rw [hm, hn] at hs' ho
      cases ho with
      | ok ho => exact hf _ _ ho s' t' hs'
      | error ho => exact ⟨hs', .error ho⟩

theorem map {R : α' → β' → Prop} {f : α → α'} {g : β → β'} (h : Coupled S E Q m n)
    (hf : ∀ a b, Q a b → R (f a) (g b)) : Coupled S E R (f <$> m) (g <$> n) :=
  bind h fun a b hab => pure (hf a b hab)

theorem bind_eq {R : α' → β' → Prop} {n : Routine τ δ α} {f : α → Routine σ ε α'}
    {g : α → Routine τ δ β'} (h : Coupled S E Eq m n) (hf : ∀ a, Coupled S E R (f a) (g a)) :
    Coupled S E R (m >>= f) (n >>= g) :=
  bind h fun a _ hab => hab ▸ hf a

theorem ite {p : Prop} [Decidable p] {m' : Routine σ ε α} {n' : Routine τ δ β}
    (h : Coupled S E Q m n) (h' : Coupled S E Q m' n') :
    Coupled S E Q (if p then m else m') (if p then n else n') := by
  split
  · exact h
  · exact h'

end Coupled

end Routine

namespace Step

variable {State α β : Type} {R : State → State → Prop} {S : Session → Session → Prop}
  {E : RunError → RunError → Prop} {Q : α → β → Prop}

/-- Related states of a fragment that are out of related sessions. -/
def Both (R : State → State → Prop) (S : Session → Session → Prop) (s t : State × Session) : Prop :=
  R s.1 t.1 ∧ S s.2 t.2

open Routine

theorem lift_coupled {m : Run α} {n : Run β} (h : Coupled S E Q m n) :
    Coupled (Both R S) E Q (lift m : Step State α) (lift n : Step State β) := by
  rintro ⟨a, s⟩ ⟨b, t⟩ ⟨hab, hs⟩
  obtain ⟨hs', ho⟩ := h s t hs
  exact ⟨⟨hab, hs'⟩, ho⟩

theorem own_coupled : Coupled (Both R S) E R (own : Step State State) own :=
  fun _ _ hs => ⟨hs, .ok hs.1⟩

theorem setOwn_coupled {a b : State} (h : R a b) :
    Coupled (Both R S) E (fun _ _ => True) (setOwn a) (setOwn b) :=
  fun _ _ hs => ⟨⟨h, hs.2⟩, .ok trivial⟩

end Step

end EventRules
