import EventRules.Proofs.Rule.Induction

/-!
# Writing an argument for a parameter

The body of an anonymous function with an argument in place of its parameter. Anonymous functions inside
that have a parameter of the same name keep it. The parameter stands for the reading of the event, but
not in the verdict of a chain itself, where the value under test is the reduced value. An environment may
have a constant of the same name; what is said here about such an environment leaves two places out, an
argument by itself and below another anonymous function.
-/

namespace EventRules
set_option autoImplicit false

/-- A parameter and what is written for it. -/
structure Binding where
  name : String
  arg : Expr

namespace Expr

mutual

/-- The names in an expression that are not parameters of its own. -/
def free : Expr → List String
  | scalar _ _ => []
  | ident t => [t.text]
  | binary _ left right => left.free ++ right.free
  | unary _ operand | compare _ operand => operand.free
  | range _ lower upper _ => lower.free ++ upper.free
  | arrow stages => freeInStages stages
  | call ⟨_, _, args⟩ => freeInAll args
  | chain calls => freeInCalls calls
  | lambda params body => body.free.filter fun name => name ∉ params.map Token.text

def freeInAll : List Expr → List String
  | [] => []
  | e :: es => e.free ++ freeInAll es

def freeInStages : List (Stage Expr) → List String
  | [] => []
  | ⟨_, body⟩ :: stages => body.free ++ freeInStages stages

def freeInCalls : List (Call Expr) → List String
  | [] => []
  | ⟨_, _, args⟩ :: calls => freeInAll args ++ freeInCalls calls

end

mutual

/-- The expression with the argument in place of the parameter where that is free. -/
def instantiate (binding : Binding) : Expr → Expr
  | scalar value t => scalar value t
  | ident t => if t.text = binding.name then binding.arg else ident t
  | binary op left right => binary op (left.instantiate binding) (right.instantiate binding)
  | unary op operand => unary op (operand.instantiate binding)
  | compare op operand => compare op (operand.instantiate binding)
  | range opening lower upper closing =>
    range opening (lower.instantiate binding) (upper.instantiate binding) closing
  | arrow stages => arrow (instantiateStages binding stages)
  | call ⟨t, strict, args⟩ => call ⟨t, strict, instantiateAll binding args⟩
  | chain calls => chain (instantiateCalls binding calls)
  | lambda params body =>
    if binding.name ∈ params.map Token.text then lambda params body
    else lambda params (body.instantiate binding)

def instantiateAll (binding : Binding) : List Expr → List Expr
  | [] => []
  | e :: es => e.instantiate binding :: instantiateAll binding es

def instantiateStages (binding : Binding) : List (Stage Expr) → List (Stage Expr)
  | [] => []
  | ⟨opening, body⟩ :: stages => ⟨opening, body.instantiate binding⟩ :: instantiateStages binding stages

def instantiateCalls (binding : Binding) : List (Call Expr) → List (Call Expr)
  | [] => []
  | ⟨t, strict, args⟩ :: calls =>
    ⟨t, strict, instantiateAll binding args⟩ :: instantiateCalls binding calls

end

/-- The names that stand in an expression itself, not in what it calls. -/
def inlineNames : Expr → List String
  | scalar _ _ => []
  | ident t => [t.text]
  | binary _ left right => left.inlineNames ++ right.inlineNames
  | unary _ operand | compare _ operand => operand.inlineNames
  | range _ lower upper _ => lower.inlineNames ++ upper.inlineNames
  | arrow _ | call _ | chain _ | lambda _ _ => []

end Expr

/-- The name does not stand in the condition of a verdict itself, and if a constant has it too, it is no
argument by itself. -/
def Call.takesReading (name : String) (isConstant : Bool) (c : Call Expr) : Bool :=
  c.args.all fun e => name ∈ e.inlineNames →
    c.name.text ≠ "meet" ∧ (isConstant = true → e.isLeaf = false)

namespace Expr

mutual

/-- The name stands for the reading wherever it is free; `isConstant` tells whether a constant has it too. -/
def takesReading (name : String) (isConstant : Bool) : Expr → Bool
  | scalar _ _ | ident _ => true
  | binary _ left right => left.takesReading name isConstant && right.takesReading name isConstant
  | unary _ operand | compare _ operand => operand.takesReading name isConstant
  | range _ lower upper _ => lower.takesReading name isConstant && upper.takesReading name isConstant
  | arrow stages => stagesTakeReading name isConstant stages
  | call ⟨t, strict, args⟩ =>
    Call.takesReading name isConstant ⟨t, strict, args⟩ && allTakeReading name isConstant args
  | chain calls => callsTakeReading name isConstant calls
  | lambda params body => isConstant = true → name ∉ (lambda params body).free

def allTakeReading (name : String) (isConstant : Bool) : List Expr → Bool
  | [] => true
  | e :: es => e.takesReading name isConstant && allTakeReading name isConstant es

def stagesTakeReading (name : String) (isConstant : Bool) : List (Stage Expr) → Bool
  | [] => true
  | ⟨_, body⟩ :: stages => body.takesReading name isConstant && stagesTakeReading name isConstant stages

def callsTakeReading (name : String) (isConstant : Bool) : List (Call Expr) → Bool
  | [] => true
  | ⟨t, strict, args⟩ :: calls => Call.takesReading name isConstant ⟨t, strict, args⟩ &&
    allTakeReading name isConstant args && callsTakeReading name isConstant calls

end

section

variable {name : String} {isConstant : Bool} {binding : Binding}

theorem instantiateAll_eq_map (es : List Expr) :
    instantiateAll binding es = es.map fun e => e.instantiate binding := by
  induction es with
  | nil => rfl
  | cons e es ih => rw [instantiateAll, ih, List.map_cons]

theorem instantiateStages_eq_map (stages : List (Stage Expr)) :
    instantiateStages binding stages = stages.map fun s => ⟨s.opening, s.body.instantiate binding⟩ := by
  induction stages with
  | nil => rfl
  | cons s stages ih => rw [instantiateStages, ih, List.map_cons]

theorem instantiateCalls_eq_map (calls : List (Call Expr)) :
    instantiateCalls binding calls = calls.map fun c =>
      ⟨c.name, c.strict, c.args.map fun e => e.instantiate binding⟩ := by
  induction calls with
  | nil => rfl
  | cons c calls ih => rw [instantiateCalls, ih, List.map_cons, instantiateAll_eq_map]

theorem mem_free_all {es : List Expr} : name ∈ freeInAll es ↔ ∃ e ∈ es, name ∈ e.free := by
  induction es with
  | nil => simp [freeInAll]
  | cons e es ih => simp [freeInAll, ih]

theorem mem_free_stages {stages : List (Stage Expr)} :
    name ∈ freeInStages stages ↔ ∃ s ∈ stages, name ∈ s.body.free := by
  induction stages with
  | nil => simp [freeInStages]
  | cons s stages ih => simp [freeInStages, ih]

theorem mem_free_calls {calls : List (Call Expr)} :
    name ∈ freeInCalls calls ↔ ∃ c ∈ calls, ∃ e ∈ c.args, name ∈ e.free := by
  induction calls with
  | nil => simp [freeInCalls]
  | cons c calls ih => simp [freeInCalls, ih, mem_free_all]

theorem allTakeReading_iff {es : List Expr} :
    allTakeReading name isConstant es = true ↔ ∀ e ∈ es, e.takesReading name isConstant = true := by
  induction es with
  | nil => simp [allTakeReading]
  | cons e es ih => simp [allTakeReading, ih]

theorem stagesTakeReading_iff {stages : List (Stage Expr)} :
    stagesTakeReading name isConstant stages = true ↔
      ∀ s ∈ stages, s.body.takesReading name isConstant = true := by
  induction stages with
  | nil => simp [stagesTakeReading]
  | cons s stages ih => simp [stagesTakeReading, ih]

theorem callsTakeReading_iff {calls : List (Call Expr)} :
    callsTakeReading name isConstant calls = true ↔ ∀ c ∈ calls,
      c.takesReading name isConstant = true ∧ ∀ e ∈ c.args, e.takesReading name isConstant = true := by
  induction calls with
  | nil => simp [callsTakeReading]
  | cons c calls ih => simp [callsTakeReading, ih, allTakeReading_iff]

theorem instantiated_arguments {es : List Expr} (h : ∀ e ∈ es, e.instantiate binding = e) :
    (es.map fun e => e.instantiate binding) = es := by
  rw [List.map_congr_left h, List.map_id']

/-- Nothing is written for a name that is not free. -/
theorem instantiate_of_not_free {e : Expr} (h : binding.name ∉ e.free) : e.instantiate binding = e := by
  induction e using Expr.induct with
  | scalar value t => rfl
  | ident t =>
    rw [instantiate, if_neg]
    exact fun ht => h (List.mem_singleton.mpr ht.symm)
  | binary op left right ihl ihr =>
    rw [free, List.mem_append, not_or] at h
    rw [instantiate, ihl h.1, ihr h.2]
  | unary op operand ih => rw [instantiate, ih h]
  | compare op operand ih => rw [instantiate, ih h]
  | range opening lower upper closing ihl ihu =>
    rw [free, List.mem_append, not_or] at h
    rw [instantiate, ihl h.1, ihu h.2]
  | arrow stages ih =>
    have heach : ∀ s ∈ stages, (⟨s.opening, s.body.instantiate binding⟩ : Stage Expr) = s :=
      fun s hs => by rw [ih s hs fun hfree => h (mem_free_stages.mpr ⟨s, hs, hfree⟩)]
    rw [instantiate, instantiateStages_eq_map, List.map_congr_left heach, List.map_id']
  | call c ih =>
    obtain ⟨t, isStrict, args⟩ := c
    rw [instantiate, instantiateAll_eq_map,
      instantiated_arguments fun e he => ih e he fun hfree => h (mem_free_all.mpr ⟨e, he, hfree⟩)]
  | chain calls ih =>
    have heach : ∀ c ∈ calls, (⟨c.name, c.strict, c.args.map fun e => e.instantiate binding⟩ :
        Call Expr) = c := by
      intro c hc
      rw [instantiated_arguments fun e he =>
        ih c hc e he fun hfree => h (mem_free_calls.mpr ⟨c, hc, e, he, hfree⟩)]
    rw [instantiate, instantiateCalls_eq_map, List.map_congr_left heach, List.map_id']
  | lambda params body ih =>
    rw [instantiate]
    split
    · rfl
    · next hname =>
      rw [ih fun hfree => h (List.mem_filter.mpr ⟨hfree, decide_eq_true hname⟩)]

end

end Expr

end EventRules
