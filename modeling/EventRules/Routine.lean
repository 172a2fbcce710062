/-!
Routines: steps that may fail and that keep, also when they fail, the state they reached.
-/

namespace EventRules
set_option autoImplicit false

universe u

/-- A step from a state to an answer or an error, and to the state it leaves. -/
def Routine (σ ε α : Type) : Type := σ → Except ε α × σ

namespace Routine

variable {σ ε α β : Type}

instance : Monad (Routine σ ε) where
  pure a := fun s => (.ok a, s)
  bind m f := fun s =>
    match m s with
    | (.ok a, t) => f a t
    | (.error e, t) => (.error e, t)

def run (m : Routine σ ε α) (s : σ) : Except ε α × σ := m s

def state : Routine σ ε σ := fun s => (.ok s, s)

def change (f : σ → σ) : Routine σ ε Unit := fun s => (.ok (), f s)

def fail (e : ε) : Routine σ ε α := fun s => (.error e, s)

/-- An answer or an error that does not depend on the state. -/
def ofExcept (r : Except ε α) : Routine σ ε α := fun s => (r, s)

/-- Runs `item` while `more` holds, `n` times at most. -/
def repeatWhile (more : σ → Bool) (item : Routine σ ε α) : Nat → Routine σ ε (List α)
  | 0 => pure []
  | n + 1 => do
    if more (← state) then
      let a ← item
      let as ← repeatWhile more item n
      return a :: as
    else return []

@[simp] theorem run_pure (a : α) (s : σ) : (pure a : Routine σ ε α).run s = (.ok a, s) := rfl

@[simp] theorem run_fail (e : ε) (s : σ) : (fail e : Routine σ ε α).run s = (.error e, s) := rfl

@[simp] theorem run_state (s : σ) : (state : Routine σ ε σ).run s = (.ok s, s) := rfl

@[simp] theorem run_change (f : σ → σ) (s : σ) :
    (change f : Routine σ ε Unit).run s = (.ok (), f s) := rfl

@[simp] theorem run_ofExcept (r : Except ε α) (s : σ) :
    (ofExcept r : Routine σ ε α).run s = (r, s) := rfl

theorem run_bind (m : Routine σ ε α) (f : α → Routine σ ε β) (s : σ) :
    (m >>= f).run s =
      match m.run s with
      | (.ok a, t) => (f a).run t
      | (.error e, t) => (.error e, t) := rfl

theorem run_bind_ok {m : Routine σ ε α} {s t : σ} {a : α} (h : m.run s = (.ok a, t))
    (f : α → Routine σ ε β) : (m >>= f).run s = (f a).run t := by
  rw [run_bind, h]

theorem run_bind_error {m : Routine σ ε α} {s t : σ} {e : ε} (h : m.run s = (.error e, t))
    (f : α → Routine σ ε β) : (m >>= f).run s = (.error e, t) := by
  rw [run_bind, h]

theorem run_bind_congr {m n : Routine σ ε α} {s : σ} (h : m.run s = n.run s) (f : α → Routine σ ε β) :
    (m >>= f).run s = (n >>= f).run s := by
  rw [run_bind, run_bind, h]

/-- Two sequences are alike if they are behind each answer of their first part. -/
theorem run_bind_next {m : Routine σ ε α} {f g : α → Routine σ ε β} {s : σ}
    (h : ∀ a t, m.run s = (.ok a, t) → (f a).run t = (g a).run t) : (m >>= f).run s = (m >>= g).run s := by
  rw [run_bind, run_bind]
  cases hm : m.run s with
  | mk r t =>
    cases r with
    | ok a => exact h a t hm
    | error e => rfl

theorem bind_bind {γ : Type} (m : Routine σ ε α) (f : α → Routine σ ε β) (k : β → Routine σ ε γ) :
    m >>= f >>= k = m >>= fun a => f a >>= k := by
  funext s
  change (m >>= f >>= k).run s = (m >>= fun a => f a >>= k).run s
  rw [run_bind, run_bind, run_bind]
  cases m.run s with
  | mk r t =>
    cases r with
    | ok a => rfl
    | error e => rfl

/-- An answer of a sequence comes from one of its first part. -/
theorem bind_ok {m : Routine σ ε α} {f : α → Routine σ ε β} {s u : σ} {b : β}
    (h : (m >>= f).run s = (.ok b, u)) : ∃ a t, m.run s = (.ok a, t) ∧ (f a).run t = (.ok b, u) := by
  rw [run_bind] at h
  cases hm : m.run s with
  | mk r t =>
    rw [hm] at h
    cases r with
    | ok a => exact ⟨a, t, rfl, h⟩
    | error e => cases h

end Routine

end EventRules
