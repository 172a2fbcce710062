import EventRules.Rule.Expr

/-!
Precedence of binary operators, and the tree that it gives to operands joined by operators.

The root of the tree is the last operator of the lowest level; so operators of a lower level bind less
tightly, and those of one level group to the left.
-/

namespace EventRules
set_option autoImplicit false

/-- Levels of operator symbols, those that bind least first. -/
structure Precedence where
  levels : List (List String)
deriving DecidableEq, Repr, Inhabited

namespace Precedence

def standard : Precedence :=
  ⟨[["||"], ["&&"], ["|", "^", "&"], ["==", "!=", ">", "<", ">=", "<="], ["<<", ">>"], ["+", "-"],
    ["*", "/"]]⟩

/-- The operators of range bounds and compare operands, which end at a comma and at the others. -/
def arithmetic : Precedence := ⟨[["+", "-"], ["*", "/"]]⟩

def level (t : Precedence) (k : Nat) : List String := t.levels[k]?.getD []

def contains (t : Precedence) (k : Nat) (symbol : String) : Bool := (t.level k).contains symbol

/-- The level of a symbol, the highest one that contains it. -/
def rank? (t : Precedence) (symbol : String) : Option Nat :=
  ((List.range t.levels.length).filter fun k => t.contains k symbol).getLast?

end Precedence

/-- An operator of a level, with the operand behind it. -/
structure Link where
  rank : Nat
  op : BinaryOp
  operand : Expr

namespace Link

/-- The last link of the lowest level, with the links before and behind it. -/
def root? : List Link → Option (List Link × Link × List Link)
  | [] => none
  | l :: ls =>
    match root? ls with
    | none => some ([], l, [])
    | some (before, root, behind) =>
      if l.rank < root.rank then some ([], l, ls) else some (l :: before, root, behind)

theorem eq_of_root {ls before behind : List Link} {root : Link}
    (h : root? ls = some (before, root, behind)) : ls = before ++ root :: behind := by
  induction ls generalizing before behind root with
  | nil => simp [root?] at h
  | cons l ls ih =>
    simp only [root?] at h
    split at h
    · rename_i hn
      cases ls with
      | nil => simp only [Option.some.injEq, Prod.mk.injEq] at h; simp [← h.1, ← h.2.1, ← h.2.2]
      | cons m ms =>
        simp only [root?] at hn
        split at hn
        · simp at hn
        · split at hn <;> simp at hn
    · rename_i b r a hr
      split at h
      · simp only [Option.some.injEq, Prod.mk.injEq] at h; simp [← h.1, ← h.2.1, ← h.2.2]
      · simp only [Option.some.injEq, Prod.mk.injEq] at h
        rw [ih hr, ← h.1, ← h.2.1, ← h.2.2]; rfl

/-- The tree of a first operand and the links behind it. -/
def group (first : Expr) (links : List Link) : Expr :=
  match h : root? links with
  | none => first
  | some (before, root, behind) =>
    have := congrArg List.length (eq_of_root h)
    .binary root.op (group first before) (group root.operand behind)
termination_by links.length
decreasing_by all_goals simp at this; omega

theorem group_of_no_root {ls : List Link} (first : Expr) (h : root? ls = none) :
    group first ls = first := by
  rw [group]
  split
  · rfl
  · next h' => cases h.symm.trans h'

theorem group_of_root {ls before behind : List Link} {root : Link} (first : Expr)
    (h : root? ls = some (before, root, behind)) :
    group first ls = .binary root.op (group first before) (group root.operand behind) := by
  rw [group]
  split
  · next h' => cases h.symm.trans h'
  · next h' => cases h.symm.trans h'; rfl

@[simp] theorem group_nil (first : Expr) : group first [] = first := by
  unfold group; rfl

end Link

end EventRules
