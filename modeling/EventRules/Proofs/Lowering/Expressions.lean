import EventRules.Proofs.Lowering.Elements
import EventRules.Proofs.Rule.Induction
import EventRules.Lowering.Expression

/-!
# Expressions lowered in two places

Every expression is lowered alike in two places, by induction over the expression. Only an expression
with an operator that calculates has code that does.
-/

namespace EventRules
set_option autoImplicit false

namespace Expr

mutual

/-- Whether an arithmetic or bitwise operator, `++` or `--` stands anywhere in an expression. -/
def calculates : Expr → Bool
  | scalar _ _ | ident _ => false
  | binary op left right => op.calculates || left.calculates || right.calculates
  | unary op operand => op != .not || operand.calculates
  | compare _ operand => operand.calculates
  | range _ lower upper _ => lower.calculates || upper.calculates
  | arrow stages => anyStageCalculates stages
  | call ⟨_, _, args⟩ => anyCalculates args
  | chain calls => anyCallCalculates calls
  | lambda _ body => body.calculates

def anyCalculates : List Expr → Bool
  | [] => false
  | e :: es => e.calculates || anyCalculates es

def anyStageCalculates : List (Stage Expr) → Bool
  | [] => false
  | ⟨_, body⟩ :: stages => body.calculates || anyStageCalculates stages

def anyCallCalculates : List (Call Expr) → Bool
  | [] => false
  | ⟨_, _, args⟩ :: calls => anyCalculates args || anyCallCalculates calls

end

theorem anyCalculates_of_mem {es : List Expr} {e : Expr} (h : e ∈ es) (he : e.calculates = true) :
    anyCalculates es = true := by
  induction es with
  | nil => simp at h
  | cons e' es ih =>
    rw [anyCalculates, Bool.or_eq_true]
    rcases List.mem_cons.mp h with rfl | h
    · exact Or.inl he
    · exact Or.inr (ih h)

theorem anyStageCalculates_of_mem {stages : List (Stage Expr)} {s : Stage Expr} (h : s ∈ stages)
    (hs : s.body.calculates = true) : anyStageCalculates stages = true := by
  induction stages with
  | nil => simp at h
  | cons s' stages ih =>
    rw [anyStageCalculates, Bool.or_eq_true]
    rcases List.mem_cons.mp h with rfl | h
    · exact Or.inl hs
    · exact Or.inr (ih h)

theorem anyCallCalculates_of_mem {calls : List (Call Expr)} {c : Call Expr} {e : Expr}
    (h : c ∈ calls) (hmem : e ∈ c.args) (he : e.calculates = true) : anyCallCalculates calls = true := by
  induction calls with
  | nil => simp at h
  | cons c' calls ih =>
    rw [anyCallCalculates, Bool.or_eq_true]
    rcases List.mem_cons.mp h with rfl | h
    · exact Or.inl (anyCalculates_of_mem hmem he)
    · exact Or.inr (ih h)

end Expr

namespace Lowering

open Routine

variable {d : Doubling} {o o' : Output} {scope : Scope} {c : OperandCall}

theorem operands_eq_map (scope : Scope) (es : List Expr) :
    operands scope es = es.map fun e => ⟨e, lower scope e⟩ := by
  induction es with
  | nil => rfl
  | cons e es ih => rw [operands, ih]; rfl

theorem operandCalls_eq_map (scope : Scope) (calls : List (Call Expr)) :
    operandCalls scope calls =
      calls.map fun c => ⟨c.name, c.strict, c.args.map fun e => ⟨e, lower scope e⟩⟩ := by
  induction calls with
  | nil => rfl
  | cons c calls ih => rw [operandCalls, ih, operands_eq_map]; rfl

theorem bound_twin {site : Site} {a b : Code} (h : CodeTwin site a b) :
    CodeTwin site (bound a) (bound b) := by
  rw [bound, bound, h.fold_eq]
  cases b.fold? with
  | none => exact h
  | some v => exact .literal v

theorem judged_eq {op : CompareOp} {v : Value} {isNumber : Bool} {e : LoweringError} {code : Code}
    (h : (do
      if !op.isEquality && !isNumber then throw e
      return .compare op (.literal v) : Except LoweringError Code) = .ok code) :
    code = .compare op (.literal v) := by
  cases hb : !op.isEquality && !isNumber with
  | true =>
    rw [hb] at h
    cases h
  | false =>
    rw [hb] at h
    cases h
    rfl

theorem comparison_eq {op : CompareOp} {operand : Expr} {code : Code}
    (h : scope.comparison op operand = .ok code) : ∃ v, code = .compare op (.literal v) := by
  cases operand with
  | scalar literal t => exact ⟨_, judged_eq h⟩
  | ident name =>
    rw [Scope.comparison] at h
    by_cases hp : scope.parameter = some name.text
    · simp only [hp, if_true] at h
      cases h
    · simp only [hp, if_false] at h
      cases hv : scope.constants.get? name.text with
      | none =>
        simp only [hv] at h
        cases h
      | some v =>
        simp only [hv] at h
        exact ⟨v, judged_eq h⟩
  | _ => cases h

theorem call_alike (hr : scope.registry = d.registry) (h : ArgumentsAlike d c) :
    Alike d CodeTwin (call scope c) (call scope c) := by
  intro o o'
  rw [call]
  cases c.strict && c.name.text != "count" with
  | true => exact AlikeAt.fail _
  | false =>
    simp only [Bool.false_eq_true, if_false]
    cases MonitorKind.ofName? c.name.text with
    | some kind => exact monitor_alike h kind o o'
    | none =>
      dsimp only
      split
      · next hfilter =>
        cases c.args.isEmpty with
        | true =>
          have hkind := kind_of_isFilter hfilter
          rw [hr] at hkind
          exact AlikeAt.pure (.filter hkind)
        | false => exact AlikeAt.fail _
      · split
        · refine chain_alike hr (fun c' hc => ?_) o o'
          obtain rfl := List.mem_singleton.mp hc
          exact h
        · exact AlikeAt.fail _

theorem stages_alike {stages : List (Stage Expr)}
    (h : ∀ s ∈ stages, Alike d CodeTwin (lower scope s.body) (lower scope s.body)) :
    Alike d (fun site => List.Forall₂ (CodeTwin site)) (lowerStages scope stages)
      (lowerStages scope stages) := by
  induction stages with
  | nil => exact fun o o' => AlikeAt.pure .nil
  | cons s stages ih =>
    intro o o'
    obtain ⟨opening, body⟩ := s
    rw [lowerStages]
    cases body.containsArrow with
    | true => exact AlikeAt.fail _
    | false =>
      refine AlikeAt.bind (h _ List.mem_cons_self o o') fun a b u u' _ hab => ?_
      have hrest := ih fun s hs => h s (List.mem_cons_of_mem _ hs)
      refine AlikeAt.bind (hrest u u') fun as bs v v' hv hrest => ?_
      exact AlikeAt.pure (.cons (hab.mono hv) hrest)

/-- The fragments added on the left and on the right stand at the same places of the copies. -/
theorem namesSince_twin {u u' : Output} (hs : InStep d o o') (hu : InStep d u u')
    (h : Grows o u) (h' : Grows o' u') :
    List.Forall₂ (fun x y => ∃ j, j < u'.fragments.length ∧ (d.site u u').Place j x y)
      (u.namesSince o.fragments.length) (u'.namesSince o'.fragments.length) := by
  have hlength := hs.length
  have hlength' := hu.length
  have hle := h.keeps_fragments.length_le
  have hle' := h'.keeps_fragments.length_le
  rw [Output.namesSince, Output.namesSince, List.forall₂_iff_get]
  refine ⟨by simp only [List.length_map, List.length_drop]; omega, fun i hi hi' => ?_⟩
  simp only [List.length_map, List.length_drop] at hi hi'
  refine ⟨o'.fragments.length + i, by omega, ?_, ?_⟩
  · have hindex : d.offset + (o'.fragments.length + i) = o.fragments.length + i := by omega
    have hlt : o.fragments.length + i < u.fragments.length := by omega
    simp [Doubling.site, hindex, List.getElem?_eq_getElem hlt]
  · have hlt : o'.fragments.length + i < u'.fragments.length := by omega
    simp [Doubling.site, List.getElem?_eq_getElem hlt]

theorem arrow_eq_named (scope : Scope) (stages : List (Stage Expr)) :
    lower scope (.arrow stages) = named "arrow" fun _ => do
      let before ← state
      let codes ← lowerStages scope stages
      let after ← state
      return .arrow ⟨codes, after.namesSince before.fragments.length⟩ := by
  rw [lower, named]
  simp only [bind_bind]
  rfl

theorem arrow_alike {stages : List (Stage Expr)}
    (h : ∀ s ∈ stages, Alike d CodeTwin (lower scope s.body) (lower scope s.body)) :
    Alike d CodeTwin (lower scope (.arrow stages)) (lower scope (.arrow stages)) := by
  rw [arrow_eq_named]
  refine named_alike _ fun _ _ o o' hs => ?_
  refine AlikeAt.state_bind (AlikeAt.bind_growing (stages_alike h o o') ?_) hs
  intro codes codes' u u' hu hl hr hcodes
  refine AlikeAt.state_bind (AlikeAt.pure (.arrow ⟨hcodes, ?_⟩))
  exact namesSince_twin hs hu hl hr

theorem lower_alike (d : Doubling) (e : Expr) : ∀ scope : Scope, scope.registry = d.registry →
    (e.calculates = true → d.calculates) → Alike d CodeTwin (lower scope e) (lower scope e) := by
  induction e using Expr.induct with
  | scalar value token =>
    intro scope _ _ o o'
    exact AlikeAt.pure (.literal _)
  | ident name =>
    intro scope _ _ o o'
    rw [lower, Scope.code]
    split
    · exact AlikeAt.pure .subject
    · split
      · exact AlikeAt.pure (.literal _)
      · exact AlikeAt.fail _
  | binary op left right ihl ihr =>
    intro scope hr hc o o'
    simp only [Expr.calculates, Bool.or_eq_true, or_imp] at hc
    obtain ⟨⟨hop, hleft⟩, hright⟩ := hc
    refine AlikeAt.bind (ihl scope hr hleft o o') fun a b u u' _ hab => ?_
    refine AlikeAt.bind (ihr scope hr hright u u') fun a' b' v v' hv hab' => ?_
    exact AlikeAt.pure (.binary hop (hab.mono hv) hab')
  | unary op operand ih =>
    intro scope hr hc o o'
    simp only [Expr.calculates, Bool.or_eq_true, or_imp] at hc
    obtain ⟨hop, hoperand⟩ := hc
    refine AlikeAt.bind (ih scope hr hoperand o o') fun a b u u' _ hab => ?_
    cases op with
    | not => exact AlikeAt.pure (.not hab)
    | increment => exact AlikeAt.pure (.step true (hop rfl) hab)
    | decrement => exact AlikeAt.pure (.step false (hop rfl) hab)
  | compare op operand ih =>
    intro scope _ _ o o'
    rw [lower]
    apply AlikeAt.ofExcept
    cases hc : scope.comparison op operand with
    | error e => exact .error rfl
    | ok c =>
      obtain ⟨v, rfl⟩ := comparison_eq hc
      exact .ok (.compare op (.literal v))
  | range opening lower' upper closing ihl ihu =>
    intro scope hr hc o o'
    simp only [Expr.calculates, Bool.or_eq_true, or_imp] at hc
    rw [lower]
    refine AlikeAt.ofExcept_bind fun _ _ => ?_
    refine AlikeAt.bind (ihl scope hr hc.1 o o') fun a b u u' _ hab => ?_
    refine AlikeAt.bind (ihu scope hr hc.2 u u') fun a' b' v v' hv hab' => ?_
    refine AlikeAt.pure (.binary nofun (.compare _ ?_) (.compare _ ?_))
    · exact bound_twin (hab.mono hv)
    · exact bound_twin hab'
  | arrow stages ih =>
    intro scope hr hc
    exact arrow_alike fun s hs => ih s hs scope hr fun h =>
      hc (by rw [Expr.calculates]; exact Expr.anyStageCalculates_of_mem hs h)
  | call c ih =>
    intro scope hr hc
    obtain ⟨name, isStrict, args⟩ := c
    rw [lower, operands_eq_map]
    refine call_alike hr fun a ha => ?_
    obtain ⟨e, he, rfl⟩ := List.mem_map.mp ha
    exact ih e he scope hr fun h =>
      hc (by rw [Expr.calculates]; exact Expr.anyCalculates_of_mem he h)
  | chain calls ih =>
    intro scope hr hc
    rw [lower, operandCalls_eq_map]
    refine chain_alike hr fun c' hc' a ha => ?_
    obtain ⟨c, hmem, rfl⟩ := List.mem_map.mp hc'
    obtain ⟨e, he, rfl⟩ := List.mem_map.mp ha
    exact ih c hmem e he scope hr fun h =>
      hc (by rw [Expr.calculates]; exact Expr.anyCallCalculates_of_mem hmem he h)
  | lambda params body ih =>
    intro scope hr hc o o'
    rw [Expr.calculates] at hc
    rw [lower]
    exact AlikeAt.ofExcept_bind fun name _ => ih { scope with parameter := some name } hr hc o o'

end Lowering

end EventRules
