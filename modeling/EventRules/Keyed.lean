/-!
Entries under names, one entry a name.
-/

namespace EventRules
set_option autoImplicit false

structure Keyed (α : Type) where
  entries : List (String × α)
deriving DecidableEq

namespace Keyed

variable {α : Type}

def empty : Keyed α := ⟨[]⟩

instance : Inhabited (Keyed α) := ⟨empty⟩

def get? (m : Keyed α) (key : String) : Option α := m.entries.lookup key

def remove (m : Keyed α) (key : String) : Keyed α := ⟨m.entries.filter fun e => e.1 != key⟩

/-- The entry under `key` is replaced if there is one. -/
def put (m : Keyed α) (key : String) (a : α) : Keyed α := ⟨(key, a) :: (m.remove key).entries⟩

def keys (m : Keyed α) : List String := m.entries.map Prod.fst

@[simp] theorem get_empty (key : String) : (empty : Keyed α).get? key = none := rfl

@[simp] theorem get_remove_self (m : Keyed α) (key : String) : (m.remove key).get? key = none := by
  simp only [get?, remove, List.lookup_eq_none_iff, List.mem_filter, bne_iff_ne]
  exact fun e he h => he.2 h.symm

theorem get_remove_of_ne (m : Keyed α) {key other : String} (h : other ≠ key) :
    (m.remove key).get? other = m.get? other := by
  obtain ⟨entries⟩ := m
  induction entries with
  | nil => rfl
  | cons e es ih =>
    obtain ⟨k, v⟩ := e
    simp only [get?, remove] at ih ⊢
    by_cases hk : k = key
    · have hb : (other == k) = false := by simpa [hk] using h
      simpa [List.filter, hk, List.lookup_cons, hk ▸ hb] using ih
    · have hf : (k != key) = true := by simpa using hk
      simp only [List.filter, hf, List.lookup_cons]
      split
      · rfl
      · exact ih

@[simp] theorem get_put_self (m : Keyed α) (key : String) (a : α) :
    (m.put key a).get? key = some a := by
  simp [get?, put]

theorem get_put_of_ne (m : Keyed α) {key other : String} (h : other ≠ key) (a : α) :
    (m.put key a).get? other = m.get? other := by
  rw [← get_remove_of_ne m h]
  have hb : (other == key) = false := by simpa using h
  simp only [get?, put, List.lookup_cons, hb]

end Keyed

end EventRules
