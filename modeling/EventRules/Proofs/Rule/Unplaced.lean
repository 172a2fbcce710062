import EventRules.Rule.Precedence
import EventRules.Rule.Statement

/-!
# Trees up to the places of their tokens

Texts with the same tokens at other places have trees that differ in the places only. `unplaced` moves
every token of a tree to the same place; trees are equal up to places when these are equal.
-/

namespace EventRules
set_option autoImplicit false

def Token.unplaced (t : Token) : Token := { t with position := .nowhere }

namespace Expr

mutual

def unplaced : Expr → Expr
  | scalar value token => scalar value token.unplaced
  | ident name => ident name.unplaced
  | binary op left right => binary op left.unplaced right.unplaced
  | unary op operand => unary op operand.unplaced
  | compare op operand => compare op operand.unplaced
  | range opening lower upper closing =>
    range opening.unplaced lower.unplaced upper.unplaced closing.unplaced
  | arrow stages => arrow (unplacedStages stages)
  | call ⟨name, strict, args⟩ => call ⟨name.unplaced, strict, unplacedAll args⟩
  | chain calls => chain (unplacedCalls calls)
  | lambda params body => lambda (params.map Token.unplaced) body.unplaced

def unplacedAll : List Expr → List Expr
  | [] => []
  | e :: es => e.unplaced :: unplacedAll es

def unplacedStages : List (Stage Expr) → List (Stage Expr)
  | [] => []
  | ⟨opening, body⟩ :: stages => ⟨opening.unplaced, body.unplaced⟩ :: unplacedStages stages

def unplacedCalls : List (Call Expr) → List (Call Expr)
  | [] => []
  | ⟨name, strict, args⟩ :: calls => ⟨name.unplaced, strict, unplacedAll args⟩ :: unplacedCalls calls

end

end Expr

def Stage.unplaced (s : Stage Expr) : Stage Expr := ⟨s.opening.unplaced, s.body.unplaced⟩

def Call.unplaced (c : Call Expr) : Call Expr :=
  ⟨c.name.unplaced, c.strict, c.args.map Expr.unplaced⟩

def Link.unplaced (l : Link) : Link := { l with operand := l.operand.unplaced }

namespace Expr

@[simp] theorem unplacedAll_eq_map (es : List Expr) : unplacedAll es = es.map unplaced := by
  induction es with
  | nil => rfl
  | cons e es ih => rw [unplacedAll, ih, List.map_cons]

@[simp] theorem unplacedStages_eq_map (stages : List (Stage Expr)) :
    unplacedStages stages = stages.map Stage.unplaced := by
  induction stages with
  | nil => rfl
  | cons s stages ih => rw [unplacedStages, ih, List.map_cons]; rfl

@[simp] theorem unplacedCalls_eq_map (calls : List (Call Expr)) :
    unplacedCalls calls = calls.map Call.unplaced := by
  induction calls with
  | nil => rfl
  | cons c calls ih => rw [unplacedCalls, ih, List.map_cons, unplacedAll_eq_map]; rfl

theorem unplaced_arrow (stages : List (Stage Expr)) :
    (arrow stages).unplaced = arrow (stages.map Stage.unplaced) := by
  rw [unplaced, unplacedStages_eq_map]

theorem unplaced_call (c : Call Expr) : (call c).unplaced = call c.unplaced := by
  obtain ⟨name, isStrict, args⟩ := c
  rw [unplaced, unplacedAll_eq_map]
  rfl

theorem unplaced_chain (calls : List (Call Expr)) :
    (chain calls).unplaced = chain (calls.map Call.unplaced) := by
  rw [unplaced, unplacedCalls_eq_map]

/-- Operators in front of an operand have no tokens in the tree. -/
theorem unplaced_prefixed (ops : List UnaryOp) (e : Expr) :
    (ops.foldr unary e).unplaced = ops.foldr unary e.unplaced := by
  induction ops with
  | nil => rfl
  | cons op ops ih => rw [List.foldr_cons, unplaced, ih, List.foldr_cons]

end Expr

namespace Link

theorem root_unplaced (ls : List Link) :
    root? (ls.map unplaced) = (root? ls).map fun (before, root, behind) =>
      (before.map unplaced, root.unplaced, behind.map unplaced) := by
  induction ls with
  | nil => rfl
  | cons l ls ih =>
    rw [List.map_cons, root?, ih, root?]
    cases root? ls with
    | none => rfl
    | some parts =>
      have hrank : l.unplaced.rank < parts.2.1.unplaced.rank ↔ l.rank < parts.2.1.rank := Iff.rfl
      simp only [Option.map_some, hrank]
      split <;> rfl

theorem unplaced_group (first : Expr) (links : List Link) :
    (group first links).unplaced = group first.unplaced (links.map unplaced) := by
  induction first, links using group.induct with
  | case1 first links h =>
    have h' : root? (links.map unplaced) = none := by rw [root_unplaced, h]; rfl
    rw [group_of_no_root first h, group_of_no_root _ h']
  | case2 first links before root behind h _ ihb ihr =>
    have h' : root? (links.map unplaced) =
        some (before.map unplaced, root.unplaced, behind.map unplaced) := by
      rw [root_unplaced, h]; rfl
    rw [group_of_root first h, group_of_root _ h', Expr.unplaced, ihb, ihr]
    rfl

end Link

namespace Statement

mutual

def unplaced : Statement → Statement
  | declare name value => declare name.unplaced value.unplaced
  | assign name value => assign name.unplaced value.unplaced
  | branch condition taken none => branch condition.unplaced (unplacedAll taken) none
  | branch condition taken (some otherwise) =>
    branch condition.unplaced (unplacedAll taken) (some otherwise.unplaced)
  | yield rule => yield rule.unplaced
  | block statements => block (unplacedAll statements)
  | bare rule => bare rule.unplaced

def unplacedAll : List Statement → List Statement
  | [] => []
  | s :: ss => s.unplaced :: unplacedAll ss

end

@[simp] theorem unplacedAll_eq_map (ss : List Statement) : unplacedAll ss = ss.map unplaced := by
  induction ss with
  | nil => rfl
  | cons s ss ih => rw [unplacedAll, ih, List.map_cons]

theorem unplaced_branch (condition : Expr) (taken : List Statement) (otherwise : Option Statement) :
    (branch condition taken otherwise).unplaced =
      branch condition.unplaced (taken.map unplaced) (otherwise.map unplaced) := by
  cases otherwise <;> rw [unplaced, unplacedAll_eq_map] <;> rfl

end Statement

end EventRules
