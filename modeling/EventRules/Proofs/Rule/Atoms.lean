import EventRules.Proofs.Rule.Unfolding

/-!
# Operands in order

The names and literals among tokens, and those that a tree or a program holds, from left to right: the
name of a call before its arguments, parameters before the body, a name before its value, a condition
before its branches. Operators, brackets and keywords give a tree its shape only. An arrow has the
operands of its shorthand, so that no expansion adds, drops or moves one.
-/

namespace EventRules
set_option autoImplicit false

open Parse

namespace Token

/-- A name or a literal. -/
def isAtom (t : Token) : Bool := t.isName || t.isScalar

def atoms (ts : List Token) : List Token := ts.filter isAtom

variable {t : Token} {ts us vs : List Token}

@[simp] theorem atoms_nil : atoms [] = [] := rfl

@[simp] theorem atoms_append (ts us : List Token) : atoms (ts ++ us) = atoms ts ++ atoms us :=
  List.filter_append ts us

theorem atoms_of_atom (h : t.isAtom = true) (ts : List Token) : atoms (t :: ts) = t :: atoms ts :=
  List.filter_cons_of_pos h

theorem atoms_of_other (h : t.isAtom = false) (ts : List Token) : atoms (t :: ts) = atoms ts :=
  List.filter_cons_of_neg (ne_true_of_eq_false h)

theorem atom_of_name (h : t.isName = true) : t.isAtom = true := by rw [isAtom, h, Bool.true_or]

theorem atom_of_scalar (h : t.isScalar = true) : t.isAtom = true := by rw [isAtom, h, Bool.or_true]

theorem no_atom_of_kind (h : t.kind = .operator ∨ t.kind = .bracket ∨ t.kind = .keyword ∨
    t.kind = .endOfInput) : t.isAtom = false := by
  rcases h with h | h | h | h <;> simp [isAtom, isName, isScalar, h]

theorem no_atom_of_operator {s : String} (h : t.isOperator s = true) : t.isAtom = false :=
  no_atom_of_kind (Or.inl (operator_of_isOperator h).1)

theorem no_atom_of_bracket {s : String} (h : t.isBracket s = true) : t.isAtom = false :=
  no_atom_of_kind (Or.inr (Or.inl (bracket_of_isBracket h).1))

theorem no_atom_of_keyword {word : String} (h : t.isKeyword word = true) : t.isAtom = false :=
  no_atom_of_kind (Or.inr (Or.inr (Or.inl (keyword_of_isKeyword h).1)))

theorem no_atom_of_end (h : t.isEnd = true) : t.isAtom = false :=
  no_atom_of_kind (Or.inr (Or.inr (Or.inr (by simpa [isEnd] using h))))

/-! ### Expansions -/

theorem atoms_equalityStage {v : Token} (h : v.isScalar = true) : atoms (equalityStage v) = [v] := by
  have hsign : ∀ kind s p, (kind = .operator ∨ kind = .bracket) → (⟨kind, s, p⟩ : Token).isAtom = false := by
    rintro kind s p (rfl | rfl) <;> rfl
  rw [equalityStage, atoms_of_other (hsign _ _ _ (Or.inr rfl)), atoms_of_other (hsign _ _ _ (Or.inl rfl)),
    atoms_of_atom (atom_of_scalar h), atoms_of_other (hsign _ _ _ (Or.inr rfl)), atoms_nil]

/-- The operands of an expansion are the values among the tokens. -/
theorem atoms_expansion (span : List Token) : atoms (expandShorthand span) = span.filter isScalar := by
  have hvalues : ∀ v ∈ span.filter isScalar, v.isScalar = true := fun v hv => (List.mem_filter.mp hv).2
  rw [expandShorthand]
  generalize span.filter isScalar = values at hvalues
  cases values with
  | nil => rfl
  | cons value values =>
    have hothers : ∀ vs : List Token, (∀ v ∈ vs, v.isScalar = true) →
        atoms (vs.flatMap fun v => ⟨.operator, "->", v.position⟩ :: equalityStage v) = vs := by
      intro vs hvs
      induction vs with
      | nil => rfl
      | cons v vs ih =>
        have hv := atoms_equalityStage (hvs v List.mem_cons_self)
        have ih := ih fun u hu => hvs u (List.mem_cons_of_mem v hu)
        rw [List.flatMap_cons, atoms_append, ih, atoms_of_other rfl, hv, List.singleton_append]
    have hvalue := atoms_equalityStage (hvalues value List.mem_cons_self)
    have hothers := hothers values fun v hv => hvalues v (List.mem_cons_of_mem value hv)
    show atoms (_ ++ _) = _
    rw [atoms_append, hvalue, hothers, List.singleton_append]

end Token

open Token

theorem Spells.exists_mark {ms : List Mark} {ts : List Token} {t : Token} (h : Spells ms ts)
    (ht : t ∈ ts) : ∃ m ∈ ms, m.Shows t := by
  induction h with
  | nil => cases ht
  | @cons m u ms ts hu _ ih =>
    rcases List.mem_cons.mp ht with rfl | ht
    · exact ⟨m, List.mem_cons_self, hu⟩
    · obtain ⟨n, hn, hshows⟩ := ih ht
      exact ⟨n, List.mem_cons_of_mem m hn, hshows⟩

namespace IsShorthand

variable {span : List Token} {t : Token}

/-- Among signs there are only values in a shorthand. -/
theorem operator_or_scalar (h : IsShorthand span) (ht : t ∈ span) :
    t.kind = .operator ∨ t.isScalar = true := by
  obtain ⟨values, -, hvalues, hspan⟩ := h
  obtain ⟨m, hm, hshows⟩ := hspan.exists_mark ht
  rcases mem_shorthandMarks hm with rfl | rfl | rfl | ⟨v, hv, rfl⟩
  · exact Or.inl hshows.1
  · exact Or.inl hshows.1
  · exact Or.inl hshows.1
  · exact Or.inr ((value_of_shown hshows).2.1.trans (scalar_of_value (hvalues v hv)))

theorem expansion_token (h : IsShorthand span) (ht : t ∈ expandShorthand span) :
    t.kind = .bracket ∨ t.isOperator "==" = true ∨ t.isOperator "->" = true ∨ t.isScalar = true := by
  obtain ⟨values, -, hvalues, hspan⟩ := h
  obtain ⟨m, hm, hshows⟩ := (expansion_of_shorthand hvalues hspan).exists_mark ht
  rcases mem_arrowMarks hm with rfl | rfl | rfl | rfl | ⟨v, hv, rfl⟩
  · exact Or.inl hshows.1
  · exact Or.inl hshows.1
  · exact Or.inr (Or.inl (operator_of_shows hshows))
  · exact Or.inr (Or.inr (Or.inl (operator_of_shows hshows)))
  · exact Or.inr (Or.inr (Or.inr ((value_of_shown hshows).2.1.trans (scalar_of_value (hvalues v hv)))))

theorem expansion_no_end (h : IsShorthand span) (ht : t ∈ expandShorthand span) : t.isEnd = false := by
  rcases h.expansion_token ht with hk | hk | hk | hk
  · simp [isEnd, hk]
  · exact not_end_of_operator (operator_of_isOperator hk).1
  · exact not_end_of_operator (operator_of_isOperator hk).1
  · cases hkind : t.kind <;> simp [isScalar, isEnd, hkind] at hk ⊢

theorem atoms (h : IsShorthand span) : Token.atoms (expandShorthand span) = Token.atoms span := by
  rw [atoms_expansion, Token.atoms]
  refine List.filter_congr fun t ht => ?_
  rcases h.operator_or_scalar ht with hk | hscalar
  · rw [no_atom_of_kind (Or.inl hk), isScalar, hk]
  · rw [atom_of_scalar hscalar, hscalar]

end IsShorthand

theorem Passes.atoms {ts us vs : List Token} (h : Passes ts us vs) :
    Token.atoms ts = Token.atoms us ++ Token.atoms vs := by
  induction h with
  | stay ts => rfl
  | @token t _ ts us vs _ ih =>
    have hfirst : ∀ ws, Token.atoms (t :: ws) = Token.atoms [t] ++ Token.atoms ws :=
      Token.atoms_append [t]
    rw [hfirst, hfirst us, ih, List.append_assoc]
  | expand hspan _ ih => rw [← ih, atoms_append, atoms_append, hspan.atoms]

/-! ### Trees -/

namespace Expr

mutual

def atoms : Expr → List Token
  | scalar _ token => [token]
  | ident name => [name]
  | binary _ left right => left.atoms ++ right.atoms
  | unary _ operand | compare _ operand => operand.atoms
  | range _ lower upper _ => lower.atoms ++ upper.atoms
  | arrow stages => atomsOfStages stages
  | call ⟨name, _, args⟩ => name :: atomsOfAll args
  | chain calls => atomsOfCalls calls
  | lambda params body => params ++ body.atoms

def atomsOfAll : List Expr → List Token
  | [] => []
  | e :: es => e.atoms ++ atomsOfAll es

def atomsOfStages : List (Stage Expr) → List Token
  | [] => []
  | ⟨_, body⟩ :: stages => body.atoms ++ atomsOfStages stages

def atomsOfCalls : List (Call Expr) → List Token
  | [] => []
  | ⟨name, _, args⟩ :: calls => name :: (atomsOfAll args ++ atomsOfCalls calls)

end

end Expr

def Stage.atoms (s : Stage Expr) : List Token := s.body.atoms

def Call.atoms (c : Call Expr) : List Token := c.name :: c.args.flatMap Expr.atoms

namespace Expr

@[simp] theorem atomsOfAll_eq_flatMap (es : List Expr) : atomsOfAll es = es.flatMap atoms := by
  induction es with
  | nil => rfl
  | cons e es ih => rw [atomsOfAll, ih, List.flatMap_cons]

@[simp] theorem atomsOfStages_eq_flatMap (stages : List (Stage Expr)) :
    atomsOfStages stages = stages.flatMap Stage.atoms := by
  induction stages with
  | nil => rfl
  | cons s stages ih => rw [atomsOfStages, ih, List.flatMap_cons, Stage.atoms]

@[simp] theorem atomsOfCalls_eq_flatMap (calls : List (Call Expr)) :
    atomsOfCalls calls = calls.flatMap Call.atoms := by
  induction calls with
  | nil => rfl
  | cons c calls ih =>
    rw [atomsOfCalls, ih, List.flatMap_cons, Call.atoms, atomsOfAll_eq_flatMap, List.cons_append]

theorem atoms_arrow (stages : List (Stage Expr)) : (arrow stages).atoms = stages.flatMap Stage.atoms := by
  rw [atoms, atomsOfStages_eq_flatMap]

theorem atoms_call (c : Call Expr) : (call c).atoms = c.atoms := by
  obtain ⟨name, isStrict, args⟩ := c
  rw [atoms, atomsOfAll_eq_flatMap, Call.atoms]

theorem atoms_chain (calls : List (Call Expr)) : (chain calls).atoms = calls.flatMap Call.atoms := by
  rw [atoms, atomsOfCalls_eq_flatMap]

theorem atoms_prefixed (ops : List UnaryOp) (e : Expr) : (ops.foldr unary e).atoms = e.atoms := by
  induction ops with
  | nil => rfl
  | cons op ops ih => rw [List.foldr_cons, atoms, ih]

end Expr

namespace Link

theorem eq_nil_of_no_root {ls : List Link} (h : root? ls = none) : ls = [] := by
  cases ls with
  | nil => rfl
  | cons l ls =>
    rw [root?] at h
    split at h
    · cases h
    · split at h <;> cases h

/-- Whatever the levels are, the operands stay in order. -/
theorem atoms_group (first : Expr) (links : List Link) :
    (group first links).atoms = first.atoms ++ links.flatMap fun l => l.operand.atoms := by
  induction first, links using group.induct with
  | case1 first links h =>
    rw [group_of_no_root first h, eq_nil_of_no_root h, List.flatMap_nil, List.append_nil]
  | case2 first links before root behind h _ ihb ihr =>
    rw [group_of_root first h, Expr.atoms, ihb, ihr, eq_of_root h, List.flatMap_append,
      List.flatMap_cons, List.append_assoc]

end Link

namespace Statement

mutual

def atoms : Statement → List Token
  | declare name value => name :: value.atoms
  | assign name value => name :: value.atoms
  | branch condition taken none => condition.atoms ++ atomsOfAll taken
  | branch condition taken (some otherwise) =>
    condition.atoms ++ (atomsOfAll taken ++ otherwise.atoms)
  | yield rule => rule.atoms
  | block statements => atomsOfAll statements
  | bare rule => rule.atoms

def atomsOfAll : List Statement → List Token
  | [] => []
  | s :: ss => s.atoms ++ atomsOfAll ss

end

@[simp] theorem atomsOfAll_eq_flatMap (ss : List Statement) : atomsOfAll ss = ss.flatMap atoms := by
  induction ss with
  | nil => rfl
  | cons s ss ih => rw [atomsOfAll, ih, List.flatMap_cons]

end Statement

end EventRules
