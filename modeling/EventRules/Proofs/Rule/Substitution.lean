import Mathlib.Data.List.Forall2
import EventRules.Proofs.Rule.Unplaced

/-!
# Writing a literal for a name

The expression that is left when a literal is written for every variable of a name, and what an
expression may hold that tells the two apart: parameters of that name, and samplers of which the
variable is the extent.
-/

namespace EventRules
set_option autoImplicit false

theorem Token.text_of_unplaced {t t' : Token} (h : t'.unplaced = t.unplaced) : t'.text = t.text :=
  (Token.mk.inj h).2.1

namespace Expr

mutual

/-- The expression with a literal in place of every variable called `name`. -/
def substitute (name : String) (literal : Literal) (token : Token) : Expr → Expr
  | scalar value t => scalar value t
  | ident t => if t.text = name then scalar literal token else ident t
  | binary op left right =>
    binary op (left.substitute name literal token) (right.substitute name literal token)
  | unary op operand => unary op (operand.substitute name literal token)
  | compare op operand => compare op (operand.substitute name literal token)
  | range opening lower upper closing =>
    range opening (lower.substitute name literal token) (upper.substitute name literal token) closing
  | arrow stages => arrow (substituteStages name literal token stages)
  | call ⟨t, strict, args⟩ => call ⟨t, strict, substituteAll name literal token args⟩
  | chain calls => chain (substituteCalls name literal token calls)
  | lambda params body => lambda params (body.substitute name literal token)

def substituteAll (name : String) (literal : Literal) (token : Token) : List Expr → List Expr
  | [] => []
  | e :: es => e.substitute name literal token :: substituteAll name literal token es

def substituteStages (name : String) (literal : Literal) (token : Token) :
    List (Stage Expr) → List (Stage Expr)
  | [] => []
  | ⟨opening, body⟩ :: stages =>
    ⟨opening, body.substitute name literal token⟩ :: substituteStages name literal token stages

def substituteCalls (name : String) (literal : Literal) (token : Token) :
    List (Call Expr) → List (Call Expr)
  | [] => []
  | ⟨t, strict, args⟩ :: calls =>
    ⟨t, strict, substituteAll name literal token args⟩ :: substituteCalls name literal token calls

end

mutual

/-- What `found` finds in the expression and in all those inside it. -/
def gather {α : Type} (found : Expr → List α) : Expr → List α
  | scalar value t => found (scalar value t)
  | ident t => found (ident t)
  | binary op left right => found (binary op left right) ++ left.gather found ++ right.gather found
  | unary op operand => found (unary op operand) ++ operand.gather found
  | compare op operand => found (compare op operand) ++ operand.gather found
  | range opening lower upper closing =>
    found (range opening lower upper closing) ++ lower.gather found ++ upper.gather found
  | arrow stages => found (arrow stages) ++ gatherStages found stages
  | call ⟨t, strict, args⟩ => found (call ⟨t, strict, args⟩) ++ gatherAll found args
  | chain calls => found (chain calls) ++ gatherCalls found calls
  | lambda params body => found (lambda params body) ++ body.gather found

def gatherAll {α : Type} (found : Expr → List α) : List Expr → List α
  | [] => []
  | e :: es => e.gather found ++ gatherAll found es

def gatherStages {α : Type} (found : Expr → List α) : List (Stage Expr) → List α
  | [] => []
  | ⟨_, body⟩ :: stages => body.gather found ++ gatherStages found stages

def gatherCalls {α : Type} (found : Expr → List α) : List (Call Expr) → List α
  | [] => []
  | ⟨_, _, args⟩ :: calls => gatherAll found args ++ gatherCalls found calls

end

/-- The parameters of the anonymous functions in the expression. -/
def parameters (e : Expr) : List String :=
  e.gather fun
    | lambda params _ => params.map Token.text
    | _ => []

end Expr

/-- A sampler has an extent as its argument. -/
def Call.IsSampler {Argument : Type} (c : Call Argument) : Prop :=
  c.name.text = "limit" ∨ c.name.text = "window"

instance {Argument : Type} (c : Call Argument) : Decidable (c.IsSampler) :=
  inferInstanceAs (Decidable (_ ∨ _))

/-- The variables that are themselves the extent of a sampler. -/
def Call.extents (c : Call Expr) : List String :=
  if c.IsSampler then
    c.args.flatMap fun
      | .ident t => [t.text]
      | _ => []
  else []

def Expr.extents (e : Expr) : List String :=
  e.gather fun
    | .call c => c.extents
    | .chain calls => calls.flatMap Call.extents
    | _ => []

namespace Expr

variable {name : String} {literal : Literal} {token : Token}

theorem substituteAll_eq_map (es : List Expr) :
    substituteAll name literal token es = es.map fun e => e.substitute name literal token := by
  induction es with
  | nil => rfl
  | cons e es ih => rw [substituteAll, ih, List.map_cons]

theorem substituteStages_eq_map (stages : List (Stage Expr)) :
    substituteStages name literal token stages =
      stages.map fun s => ⟨s.opening, s.body.substitute name literal token⟩ := by
  induction stages with
  | nil => rfl
  | cons s stages ih => rw [substituteStages, ih, List.map_cons]

theorem substituteCalls_eq_map (calls : List (Call Expr)) :
    substituteCalls name literal token calls = calls.map fun c =>
      ⟨c.name, c.strict, c.args.map fun e => e.substitute name literal token⟩ := by
  induction calls with
  | nil => rfl
  | cons c calls ih => rw [substituteCalls, ih, List.map_cons, substituteAll_eq_map]

section

variable {α : Type} {found : Expr → List α}

theorem gather_of_argument {es : List Expr} {e : Expr} (h : e ∈ es) :
    e.gather found ⊆ gatherAll found es := by
  induction es with
  | nil => cases h
  | cons e' es ih =>
    rw [gatherAll]
    rcases List.mem_cons.mp h with rfl | h
    · exact List.subset_append_left _ _
    · exact List.Subset.trans (ih h) (List.subset_append_right _ _)

theorem gather_of_stage {stages : List (Stage Expr)} {s : Stage Expr} (h : s ∈ stages) :
    s.body.gather found ⊆ gatherStages found stages := by
  induction stages with
  | nil => cases h
  | cons s' stages ih =>
    rw [gatherStages]
    rcases List.mem_cons.mp h with rfl | h
    · exact List.subset_append_left _ _
    · exact List.Subset.trans (ih h) (List.subset_append_right _ _)

theorem gather_of_call {calls : List (Call Expr)} {c : Call Expr} {e : Expr} (h : c ∈ calls)
    (he : e ∈ c.args) : e.gather found ⊆ gatherCalls found calls := by
  induction calls with
  | nil => cases h
  | cons c' calls ih =>
    rw [gatherCalls]
    rcases List.mem_cons.mp h with rfl | h
    · exact List.Subset.trans (gather_of_argument he) (List.subset_append_left _ _)
    · exact List.Subset.trans (ih h) (List.subset_append_right _ _)

end

/-- The expression with the literal for the name, up to places. -/
def Spells (name : String) (literal : Literal) (token : Token) (e e' : Expr) : Prop :=
  e'.unplaced = (e.substitute name literal token).unplaced

namespace Spells

variable {e' left right operand below above body : Expr} {t opening closing : Token}

theorem of_scalar {value : Literal} (h : Spells name literal token (.scalar value t) e') :
    ∃ t', e' = .scalar value t' := by
  cases e' with
  | scalar value' t' =>
    obtain ⟨rfl, -⟩ := Expr.scalar.inj h
    exact ⟨t', rfl⟩
  | _ => cases h

theorem of_name (h : Spells name literal token (.ident t) e') (ht : t.text = name) :
    ∃ t', e' = .scalar literal t' := by
  rw [Spells, substitute, if_pos ht] at h
  cases e' with
  | scalar value' t' =>
    obtain ⟨rfl, -⟩ := Expr.scalar.inj h
    exact ⟨t', rfl⟩
  | _ => cases h

theorem of_ident (h : Spells name literal token (.ident t) e') (ht : t.text ≠ name) :
    ∃ t', e' = .ident t' ∧ t'.text = t.text := by
  rw [Spells, substitute, if_neg ht] at h
  cases e' with
  | ident t' =>
    exact ⟨t', rfl, Token.text_of_unplaced (Expr.ident.inj h)⟩
  | _ => cases h

theorem of_binary {op : BinaryOp} (h : Spells name literal token (.binary op left right) e') :
    ∃ left' right', e' = .binary op left' right' ∧ Spells name literal token left left' ∧
      Spells name literal token right right' := by
  cases e' with
  | binary op' left' right' =>
    obtain ⟨rfl, hleft, hright⟩ := Expr.binary.inj h
    exact ⟨left', right', rfl, hleft, hright⟩
  | _ => cases h

theorem of_unary {op : UnaryOp} (h : Spells name literal token (.unary op operand) e') :
    ∃ operand', e' = .unary op operand' ∧ Spells name literal token operand operand' := by
  cases e' with
  | unary op' operand' =>
    obtain ⟨rfl, hoperand⟩ := Expr.unary.inj h
    exact ⟨operand', rfl, hoperand⟩
  | _ => cases h

theorem of_compare {op : CompareOp} (h : Spells name literal token (.compare op operand) e') :
    ∃ operand', e' = .compare op operand' ∧ Spells name literal token operand operand' := by
  cases e' with
  | compare op' operand' =>
    obtain ⟨rfl, hoperand⟩ := Expr.compare.inj h
    exact ⟨operand', rfl, hoperand⟩
  | _ => cases h

theorem of_range (h : Spells name literal token (.range opening below above closing) e') :
    ∃ opening' below' above' closing', e' = .range opening' below' above' closing' ∧
      opening'.unplaced = opening.unplaced ∧ closing'.unplaced = closing.unplaced ∧
      Spells name literal token below below' ∧ Spells name literal token above above' := by
  cases e' with
  | range opening' below' above' closing' =>
    obtain ⟨hopening, hbelow, habove, hclosing⟩ := Expr.range.inj h
    exact ⟨opening', below', above', closing', rfl, hopening, hclosing, hbelow, habove⟩
  | _ => cases h

theorem of_lambda {params : List Token} (h : Spells name literal token (.lambda params body) e') :
    ∃ params' body', e' = .lambda params' body' ∧
      params'.map Token.unplaced = params.map Token.unplaced ∧ Spells name literal token body body' := by
  cases e' with
  | lambda params' body' =>
    obtain ⟨hparams, hbody⟩ := Expr.lambda.inj h
    exact ⟨params', body', rfl, hparams, hbody⟩
  | _ => cases h

/-- Lists that have the same image under two maps agree element by element. -/
theorem forall₂_of_map_eq {α β γ : Type} {f : α → γ} {g : β → γ} {as : List α} {bs : List β}
    (h : bs.map g = as.map f) : List.Forall₂ (fun a b => g b = f a) as bs := by
  have heach : List.Forall₂ (fun x y : γ => y = x) (as.map f) (bs.map g) := by
    rw [h]
    exact List.forall₂_same.mpr fun _ _ => rfl
  rwa [List.forall₂_map_left_iff, List.forall₂_map_right_iff] at heach

theorem of_arrow {stages : List (Stage Expr)} (h : Spells name literal token (.arrow stages) e') :
    ∃ stages', e' = .arrow stages' ∧
      List.Forall₂ (fun s s' => Spells name literal token s.body s'.body) stages stages' := by
  rw [Spells, substitute, substituteStages_eq_map, unplaced_arrow] at h
  cases e' with
  | arrow stages' =>
    rw [unplaced_arrow, List.map_map] at h
    have heach := forall₂_of_map_eq (Expr.arrow.inj h)
    exact ⟨stages', rfl, heach.imp fun _ _ hs => congrArg Stage.body hs⟩
  | _ => cases h

/-- The calls have the same name and the same arguments, with the literal for the name. -/
structure OfCall (name : String) (literal : Literal) (token : Token) (c c' : Call Expr) : Prop where
  args : List.Forall₂ (Spells name literal token) c.args c'.args
  called : c'.name.text = c.name.text
  strict : c'.strict = c.strict

theorem call_of_unplaced {c c' : Call Expr}
    (h : c'.unplaced = Call.unplaced ⟨c.name, c.strict,
      c.args.map fun e => e.substitute name literal token⟩) : OfCall name literal token c c' := by
  obtain ⟨hname, hstrict, hargs⟩ := Call.mk.inj h
  rw [List.map_map] at hargs
  exact ⟨forall₂_of_map_eq hargs, Token.text_of_unplaced hname, hstrict⟩

theorem ofCall {c : Call Expr} (h : Spells name literal token (.call c) e') :
    ∃ c', e' = .call c' ∧ OfCall name literal token c c' := by
  obtain ⟨t, isStrict, args⟩ := c
  rw [Spells, substitute, substituteAll_eq_map, unplaced_call] at h
  cases e' with
  | call c' =>
    rw [unplaced_call] at h
    exact ⟨c', rfl, call_of_unplaced (Expr.call.inj h)⟩
  | _ => cases h

theorem of_chain {calls : List (Call Expr)} (h : Spells name literal token (.chain calls) e') :
    ∃ calls', e' = .chain calls' ∧ List.Forall₂ (OfCall name literal token) calls calls' := by
  rw [Spells, substitute, substituteCalls_eq_map, unplaced_chain] at h
  cases e' with
  | chain calls' =>
    rw [unplaced_chain, List.map_map] at h
    exact ⟨calls', rfl, (forall₂_of_map_eq (Expr.chain.inj h)).imp fun _ _ hc => call_of_unplaced hc⟩
  | _ => cases h

end Spells

end Expr

end EventRules
