/-!
Sets of characters given as ascending ranges of code points.
-/

namespace EventRules.Text
set_option autoImplicit false

/-- A first and a last code point, both included. -/
abbrev CodeRange := Nat × Nat

def CodeRange.contains (r : CodeRange) (n : Nat) : Bool := r.1 ≤ n && n ≤ r.2

/-- Membership in a table of ranges. -/
def inRanges (table : List CodeRange) (c : Char) : Bool :=
  table.any (CodeRange.contains · c.toNat)

theorem inRanges_iff {table : List CodeRange} {c : Char} :
    inRanges table c = true ↔ ∃ r ∈ table, r.1 ≤ c.toNat ∧ c.toNat ≤ r.2 := by
  simp [inRanges, CodeRange.contains]

end EventRules.Text
