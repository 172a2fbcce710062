import Mathlib.Data.List.Basic
import Mathlib.Order.Bounds.Basic
import EventRules.Rule.Precedence

/-!
# Levels of operators

The level of a symbol is the highest one of the table that contains it. Among operators with an operand
behind each, the last one of the lowest level is the root of their tree; so it is known from the levels on
its two sides.
-/

namespace EventRules
set_option autoImplicit false

namespace Precedence

variable {table : Precedence} {symbol : String}

/-- The level of a symbol is the highest one that contains it. -/
def IsLevel (table : Precedence) (symbol : String) (k : Nat) : Prop :=
  IsGreatest {j | table.contains j symbol = true} k

theorem lt_of_contains {k : Nat} (h : table.contains k symbol = true) : k < table.levels.length := by
  by_cases hk : k < table.levels.length
  · exact hk
  · simp [contains, level, List.getElem?_eq_none (Nat.le_of_not_lt hk)] at h

/-- The last number that satisfies a test is the greatest one. -/
theorem last_of_range {p : Nat → Bool} {n k : Nat} (h : ((List.range n).filter p).getLast? = some k) :
    p k = true ∧ ∀ j < n, p j = true → j ≤ k := by
  induction n with
  | zero => simp at h
  | succ n ih =>
    rw [List.range_succ, List.filter_append, List.filter_singleton] at h
    cases hn : p n with
    | true =>
      obtain rfl : n = k := by simpa [hn] using h
      exact ⟨hn, fun j hj _ => Nat.le_of_lt_succ hj⟩
    | false =>
      obtain ⟨hk, hgreatest⟩ := ih (by simpa [hn] using h)
      refine ⟨hk, fun j hj hp => ?_⟩
      by_cases hjn : j = n
      · subst hjn
        rw [hn] at hp
        cases hp
      · exact hgreatest j (by omega) hp

theorem isLevel_of_rank {k : Nat} (h : table.rank? symbol = some k) : table.IsLevel symbol k := by
  obtain ⟨hk, hgreatest⟩ := last_of_range h
  exact ⟨hk, fun j hj => hgreatest j (lt_of_contains hj) hj⟩

theorem exists_rank {k : Nat} (h : table.contains k symbol = true) : ∃ j, table.rank? symbol = some j := by
  apply Option.ne_none_iff_exists'.mp
  intro hnone
  have hk : k ∈ (List.range table.levels.length).filter fun j => table.contains j symbol :=
    List.mem_filter.mpr ⟨List.mem_range.mpr (lt_of_contains h), h⟩
  rw [List.getLast?_eq_none_iff.mp hnone] at hk
  cases hk

theorem rank_eq_some_iff {k : Nat} : table.rank? symbol = some k ↔ table.IsLevel symbol k := by
  constructor
  · exact isLevel_of_rank
  · intro h
    obtain ⟨j, hj⟩ := exists_rank h.1
    rw [hj, (isLevel_of_rank hj).unique h]

theorem exists_level {level : List String} (hlevel : level ∈ table.levels) (hsymbol : symbol ∈ level) :
    ∃ k, table.IsLevel symbol k := by
  obtain ⟨i, hi, rfl⟩ := List.getElem_of_mem hlevel
  have hcontains : table.contains i symbol = true := by
    simpa [contains, Precedence.level, List.getElem?_eq_getElem hi] using hsymbol
  obtain ⟨k, hk⟩ := exists_rank hcontains
  exact ⟨k, isLevel_of_rank hk⟩

end Precedence

namespace Link

variable {ls before behind : List Link} {root : Link}

theorem root_least (h : root? ls = some (before, root, behind)) :
    (∀ l ∈ before, root.rank ≤ l.rank) ∧ ∀ l ∈ behind, root.rank < l.rank := by
  induction ls generalizing before behind root with
  | nil => cases h
  | cons l ls ih =>
    unfold root? at h
    split at h
    · next hnone =>
      cases h
      exact ⟨nofun, nofun⟩
    · next before' root' behind' hroot =>
      obtain ⟨hbefore, hbehind⟩ := ih hroot
      split at h
      · next hlt =>
        cases h
        refine ⟨nofun, fun m hm => ?_⟩
        rw [eq_of_root hroot] at hm
        rcases List.mem_append.mp hm with hm | hm
        · exact Nat.lt_of_lt_of_le hlt (hbefore m hm)
        · rcases List.mem_cons.mp hm with rfl | hm
          · exact hlt
          · exact Nat.lt_trans hlt (hbehind m hm)
      · next hle =>
        cases h
        refine ⟨fun m hm => ?_, hbehind⟩
        rcases List.mem_cons.mp hm with rfl | hm
        · exact Nat.le_of_not_lt hle
        · exact hbefore m hm

theorem exists_root {l : Link} (ls : List Link) : ∃ r, root? (l :: ls) = some r := by
  unfold root?
  split
  · exact ⟨_, rfl⟩
  · split <;> exact ⟨_, rfl⟩

/-- The root is known from the levels on its two sides. -/
theorem root_of_least (hbefore : ∀ l ∈ before, root.rank ≤ l.rank)
    (hbehind : ∀ l ∈ behind, root.rank < l.rank) :
    root? (before ++ root :: behind) = some (before, root, behind) := by
  induction before with
  | nil =>
    rw [List.nil_append, root?.eq_def]
    cases behind with
    | nil => rfl
    | cons l ls =>
      obtain ⟨⟨before', root', behind'⟩, hroot⟩ := exists_root (l := l) ls
      have hmem : root' ∈ l :: ls := by
        rw [eq_of_root hroot]
        exact List.mem_append_right _ List.mem_cons_self
      simp only [hroot, if_pos (hbehind root' hmem)]
  | cons l before ih =>
    have hroot := ih fun m hm => hbefore m (List.mem_cons_of_mem l hm)
    have hle : ¬ l.rank < root.rank := Nat.not_lt.mpr (hbefore l List.mem_cons_self)
    rw [List.cons_append, root?.eq_def]
    simp only [hroot, if_neg hle]

/-- A link with tighter ones behind it makes an operation of all before it. -/
theorem group_append (first : Expr) (hbefore : ∀ l ∈ before, root.rank ≤ l.rank)
    (hbehind : ∀ l ∈ behind, root.rank < l.rank) :
    group first (before ++ root :: behind) =
      .binary root.op (group first before) (group root.operand behind) :=
  group_of_root first (root_of_least hbefore hbehind)

theorem least_append (hbefore : ∀ l ∈ before, root.rank ≤ l.rank)
    (hbehind : ∀ l ∈ behind, root.rank < l.rank) :
    ∀ l ∈ before ++ root :: behind, root.rank ≤ l.rank := by
  intro l hl
  rcases List.mem_append.mp hl with hl | hl
  · exact hbefore l hl
  · rcases List.mem_cons.mp hl with rfl | hl
    · exact Nat.le_refl _
    · exact Nat.le_of_lt (hbehind l hl)

end Link

end EventRules
