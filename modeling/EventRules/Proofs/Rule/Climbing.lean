import EventRules.Proofs.Rule.Levels
import EventRules.Proofs.Rule.Operands
import EventRules.Rule.Parser.Descent

/-!
# Climbing through the levels of a table

Reading level by level gives the same answer, and leaves the same parser, as passing all operands first and
grouping them by the levels of the operators between them. By induction on the levels that are left, a level
reads just the operands joined by operators of its own and of the levels behind it; within a level, by
induction on the tokens that are left, what stands on the left of an operator is the group of all before it.
-/

namespace EventRules
set_option autoImplicit false

open Token Routine Parse Respelling

variable {nested nested' : Parse Expr} {k : Nat} {p q : Parser} {ls bs : List Link}

/-- The step for nested expressions walks wherever an end token stands behind the tokens. -/
def WalksAlways (nested : Parse Expr) : Prop :=
  ∀ p : Parser, p.last.isEnd = true → Walks (Keeps Expr.atoms 1) nested nested p

theorem WalksAlways.within (hn : WalksAlways nested) (d : Nat) : NestedWalks d nested nested :=
  fun p hp => hn p hp.ended

/-! ### The level of the current token -/

namespace Parse

/-- The current token is an operator of level `k` or a tighter one. -/
def fromLevel (k : Nat) (p : Parser) : Bool := (operatorRank? p).any (k ≤ ·)

theorem fromLevel_iff : fromLevel k p = true ↔ ∃ j, operatorRank? p = some j ∧ k ≤ j := by
  rw [fromLevel, Option.any_eq_true]
  simp

theorem fromLevel_zero (p : Parser) : fromLevel 0 p = (operatorRank? p).isSome := by
  rw [fromLevel]
  cases operatorRank? p <;> rfl

theorem fromLevel_of_succ (h : fromLevel (k + 1) p = true) : fromLevel k p = true := by
  obtain ⟨j, hj, hle⟩ := fromLevel_iff.mp h
  exact fromLevel_iff.mpr ⟨j, hj, Nat.le_of_succ_le hle⟩

theorem operator_of_fromLevel (h : fromLevel k p = true) : p.current.kind = .operator := by
  obtain ⟨j, hj, -⟩ := fromLevel_iff.mp h
  exact operator_of_rank (Option.isSome_iff_exists.mpr ⟨j, hj⟩)

theorem level_of_rank {j : Nat} (h : operatorRank? p = some j) :
    p.current.kind = .operator ∧ p.table.IsLevel p.current.text j := by
  have hk := operator_of_rank (Option.isSome_iff_exists.mpr ⟨j, h⟩)
  rw [operatorRank?, if_pos hk] at h
  exact ⟨hk, Precedence.isLevel_of_rank h⟩

/-- No operator is of a level that the table does not have. -/
theorem not_fromLevel_of_length (h : p.table.levels.length ≤ k) : fromLevel k p = false := by
  refine Bool.eq_false_iff.mpr fun hfrom => ?_
  obtain ⟨j, hj, hle⟩ := fromLevel_iff.mp hfrom
  have hlt := Precedence.lt_of_contains (level_of_rank hj).2.1
  omega

theorem operator_of_atLevel (h : atLevel k p = true) : p.current.kind = .operator := by
  rw [atLevel, Bool.and_eq_true] at h
  simpa using h.1

/-- A level that contains the symbol is its own, unless a tighter one contains it too. -/
theorem rank_of_atLevel (h : atLevel k p = true) (htighter : fromLevel (k + 1) p = false) :
    operatorRank? p = some k := by
  have hk := operator_of_atLevel h
  rw [atLevel, Bool.and_eq_true] at h
  obtain ⟨j, hj⟩ := Precedence.exists_rank h.2
  have hrank : operatorRank? p = some j := by rw [operatorRank?, if_pos hk, hj]
  have hle : k ≤ j := (Precedence.isLevel_of_rank hj).2 h.2
  have hlt : ¬ k + 1 ≤ j := fun hlt => by
    rw [fromLevel_iff.mpr ⟨j, hrank, hlt⟩] at htighter
    cases htighter
  obtain rfl : j = k := by omega
  exact hrank

theorem not_fromLevel_of_not_atLevel (h : atLevel k p = false) (htighter : fromLevel (k + 1) p = false) :
    fromLevel k p = false := by
  refine Bool.eq_false_iff.mpr fun hfrom => ?_
  obtain ⟨j, hj, hle⟩ := fromLevel_iff.mp hfrom
  have hlt : ¬ k + 1 ≤ j := fun hlt => by
    rw [fromLevel_iff.mpr ⟨j, hj, hlt⟩] at htighter
    cases htighter
  obtain rfl : j = k := by omega
  obtain ⟨hk, hlevel⟩ := level_of_rank hj
  have hat : atLevel j p = true := by
    rw [atLevel, hk]
    exact hlevel.1
  rw [hat] at h
  cases h

end Parse

/-! ### Links from a level on -/

/-- The operators from level `k` on, each with the operand behind it. -/
def Parse.linksFrom (nested : Parse Expr) (k : Nat) : Parse (List Link) :=
  roundsAhead (fromLevel k) (link nested)

theorem linksFrom_stop (nested : Parse Expr) (h : fromLevel k p = false) :
    (linksFrom nested k).run p = (.ok [], p) := roundsAhead_stop _ h

theorem rank_of_link {l : Link} (h : (link nested).run p = (.ok l, q)) :
    l.rank = (operatorRank? p).getD 0 := by
  rw [link_run] at h
  split at h
  · cases h
  · obtain ⟨_, p₁, -, h⟩ := bind_ok h
    obtain ⟨_, p₂, -, h⟩ := bind_ok h
    cases h
    rfl

section

variable (hn : WalksAlways nested)
include hn

theorem WalksAlways.link (hp : p.last.isEnd = true) (h : fromLevel k p = true) :
    Walks (Keeps (fun l : Link => l.operand.atoms) 2) (Parse.link nested) (Parse.link nested) p :=
  link_walks (hn.within _) (.own hp) (operator_of_fromLevel h)

theorem WalksAlways.linksFrom (hp : p.last.isEnd = true) :
    Walks (KeepsEach fun l : Link => l.operand.atoms) (linksFrom nested k) (linksFrom nested k) p :=
  Walks.repeat_ahead (fun _ => operator_of_fromLevel) (fun _ hq h => hn.link hq.ended h) (.own hp)

theorem linksFrom_split (hp : p.last.isEnd = true) :
    (linksFrom nested k).run p = (do
      let as ← linksFrom nested (k + 1)
      let bs ← linksFrom nested k
      return as ++ bs : Parse (List Link)).run p :=
  roundsAhead_split (fun _ hq h => hn.link hq h) (fun _ => operator_of_fromLevel) (fun _ => fromLevel_of_succ) hp

theorem linksFrom_some (hp : p.last.isEnd = true) (h : fromLevel k p = true) :
    (linksFrom nested k).run p = (do
      let l ← link nested
      let ls ← linksFrom nested k
      return l :: ls : Parse (List Link)).run p :=
  roundsAhead_some (fun _ hq h => hn.link hq h) (fun _ => operator_of_fromLevel) hp h

theorem linksFrom_stopped (hp : p.last.isEnd = true) (h : (linksFrom nested k).run p = (.ok ls, q)) :
    fromLevel k q = false :=
  roundsAhead_stopped (fun _ hq h => hn.link hq h) (fun _ => operator_of_fromLevel) hp h

theorem le_of_linksFrom (hp : p.last.isEnd = true) (h : (linksFrom nested k).run p = (.ok ls, q)) :
    ∀ l ∈ ls, k ≤ l.rank := by
  induction hsize : total p.ahead using Nat.strongRecOn generalizing p ls with
  | ind n ih =>
    cases hfrom : fromLevel k p with
    | false =>
      rw [linksFrom_stop _ hfrom] at h
      cases h
      exact nofun
    | true =>
      rw [linksFrom_some hn hp hfrom] at h
      obtain ⟨l, p₁, hlink, h⟩ := bind_ok h
      obtain ⟨bs, p₂, hrest, h⟩ := bind_ok h
      cases h
      obtain ⟨ts, hts, hkept⟩ := (hn.link hp hfrom).answer hlink
      have htotal := hts.total_le
      have hpassed := hkept.total_ge
      obtain ⟨j, hj, hle⟩ := fromLevel_iff.mp hfrom
      intro m hm
      rcases List.mem_cons.mp hm with rfl | hm
      · rw [rank_of_link hlink, hj]
        exact hle
      · exact ih (total p₁.ahead) (by omega) (hts.ended hp) hrest rfl m hm

end

/-! ### One level -/

theorem advance_run (p : Parser) : advance.run p = (.ok p.current, p.advanced) := rfl

theorem operatorThen_stop {tighter : Parse Expr} {rest : Expr → Parse Expr} {left : Expr}
    (h : atLevel k p = false) : (operatorThen k tighter rest left).run p = (.ok left, p) := by
  rw [operatorThen, run_bind_ok (run_state p), h]
  rfl

theorem operatorThen_some (tighter : Parse Expr) (rest : Expr → Parse Expr) (left : Expr)
    (h : atLevel k p = true) : (operatorThen k tighter rest left).run p =
      (match BinaryOp.ofSymbol? p.current.text with
      | none => unexpected .binaryOperator
      | some op => do
        let _ ← advance
        let right ← tighter
        rest (.binary op left right)).run p := by
  rw [operatorThen, run_bind_ok (run_state p), h]
  rfl

theorem operatorsUpTo_stop {tighter : Parse Expr} {left : Expr} (h : atLevel k p = false) (rounds : Nat) :
    (operatorsUpTo k tighter rounds left).run p = (.ok left, p) := by
  cases rounds with
  | zero => rfl
  | succ rounds => exact operatorThen_stop h

/-- No link is left at this level. -/
theorem operatorsUpTo_done {tighter : Parse Expr} (first : Expr) (hat : atLevel k p = false)
    (hstop : fromLevel (k + 1) p = false) (rounds : Nat) :
    (operatorsUpTo k tighter rounds (Link.group first ls)).run p = (do
      let others ← linksFrom nested k
      return Link.group first (ls ++ others) : Parse Expr).run p := by
  rw [operatorsUpTo_stop hat, run_bind_ok (linksFrom_stop _ (not_fromLevel_of_not_atLevel hat hstop)),
    List.append_nil]
  rfl

section

variable (hn : WalksAlways nested)
include hn

theorem WalksAlways.operand (hp : p.last.isEnd = true) :
    Walks (Keeps Expr.atoms 1) (operand nested) (operand nested) p :=
  operand_walks (hn.within _) (.own hp)

/-- An operator of level `k`, its operand and the tighter operators behind it, and what is left. -/
theorem linksFrom_round (hp : p.last.isEnd = true) (hrank : operatorRank? p = some k) :
    (linksFrom nested k).run p =
      (match BinaryOp.ofSymbol? p.current.text with
      | none => unexpected .binaryOperator
      | some op => do
        let _ ← advance
        let right ← Parse.operand nested
        let tighter ← linksFrom nested (k + 1)
        let others ← linksFrom nested k
        return ⟨k, op, right⟩ :: (tighter ++ others) : Parse (List Link)).run p := by
  have hfrom : fromLevel k p = true := fromLevel_iff.mpr ⟨k, hrank, Nat.le_refl k⟩
  have hend := not_end_of_operator (operator_of_fromLevel hfrom)
  rw [linksFrom_some hn hp hfrom, run_bind_congr (link_run nested p), hrank]
  cases BinaryOp.ofSymbol? p.current.text with
  | none => rfl
  | some op =>
    have hadvanced := Parser.Reaches.advanced hp hend
    simp only [linkOf, bind_bind]
    rw [run_bind_ok (advance_run p), run_bind_ok (advance_run p)]
    refine run_bind_next fun right p₁ hright => ?_
    obtain ⟨ts, hts, -⟩ := (hn.operand (hadvanced.ended hp)).answer hright
    change (linksFrom nested k >>= fun ls => pure (⟨k, op, right⟩ :: ls)).run p₁ = _
    rw [run_bind_congr (linksFrom_split hn (hts.ended (hadvanced.ended hp)))]
    simp only [bind_bind]
    rfl

/-- What stands on the left is grouped already, and all of it is of level `k` or tighter. -/
theorem operatorsUpTo_run {tighter : Parse Expr} {table : Precedence}
    (htighter : ∀ q : Parser, q.last.isEnd = true → q.table = table →
      tighter.run q = (joinedWhile (fromLevel (k + 1)) nested).run q)
    (first : Expr) (hls : ∀ l ∈ ls, k ≤ l.rank) (hp : p.last.isEnd = true) (htable : p.table = table)
    (hstop : fromLevel (k + 1) p = false) {rounds : Nat} (hrounds : total p.ahead ≤ 2 * rounds) :
    (operatorsUpTo k tighter rounds (Link.group first ls)).run p = (do
      let others ← linksFrom nested k
      return Link.group first (ls ++ others) : Parse Expr).run p := by
  induction rounds generalizing p ls with
  | zero =>
    refine operatorsUpTo_done first (Bool.eq_false_iff.mpr fun hat => ?_) hstop 0
    have hpos := Parser.total_of_operator hp (operator_of_atLevel hat)
    omega
  | succ rounds ih =>
    cases hat : atLevel k p with
    | false => exact operatorsUpTo_done first hat hstop (rounds + 1)
    | true =>
      have hk := operator_of_atLevel hat
      have hsize := size_of_operator hk
      have hadvanced := Parser.Reaches.advanced hp (not_end_of_operator hk)
      have hp₁ := hadvanced.ended hp
      have htable₁ : p.advanced.table = table := hadvanced.table.trans htable
      have htotal₁ := hadvanced.total_le
      rw [operatorsUpTo, operatorThen_some _ _ _ hat,
        run_bind_congr (linksFrom_round hn hp (rank_of_atLevel hat hstop))]
      cases BinaryOp.ofSymbol? p.current.text with
      | none => rfl
      | some op =>
        simp only [bind_bind]
        rw [run_bind_ok (advance_run p), run_bind_ok (advance_run p),
          run_bind_congr (htighter p.advanced hp₁ htable₁), joinedWhile]
        simp only [bind_bind]
        refine run_bind_next fun right p₂ hright => ?_
        obtain ⟨ts, hts, hkept⟩ := (hn.operand hp₁).answer hright
        have hp₂ := hts.ended hp₁
        have hpassed := hkept.total_ge
        have htotal₂ := hts.total_le
        change (linksFrom nested (k + 1) >>= _).run p₂ = (linksFrom nested (k + 1) >>= _).run p₂
        refine run_bind_next fun behind p₃ hbehind => ?_
        obtain ⟨us, hus, -⟩ := (hn.linksFrom hp₂).answer hbehind
        have htotal₃ := hus.total_le
        -- the operator is the root of all links so far: those behind it are tighter, none before it is looser
        have hleast : ∀ l ∈ behind, (⟨k, op, right⟩ : Link).rank < l.rank :=
          le_of_linksFrom hn hp₂ hbehind
        have hrest := ih (Link.least_append hls hleast) (hus.ended hp₂)
          (hus.table.trans (hts.table.trans htable₁)) (linksFrom_stopped hn hp₂ hbehind)
          (by rw [total_cons] at htotal₁; omega)
        rw [Link.group_append first hls hleast] at hrest
        simp only [List.append_assoc, List.cons_append] at hrest
        exact hrest

/-! ### All levels -/

/-- A level reads the operands joined by operators of its own and of tighter levels. -/
theorem levelsFrom_run {count : Nat} (hp : p.last.isEnd = true)
    (hcount : p.table.levels.length - k = count) :
    (levelsFrom nested count k).run p = (joinedWhile (fromLevel k) nested).run p := by
  induction count generalizing k p with
  | zero =>
    rw [levelsFrom, joinedWhile]
    cases hfirst : (Parse.operand nested).run p with
    | mk r p₁ =>
      cases r with
      | error e => rw [run_bind_error hfirst]
      | ok first =>
        obtain ⟨ts, hts, -⟩ := (hn.operand hp).answer hfirst
        have hlength : p₁.table.levels.length ≤ k := by
          rw [hts.table]
          omega
        rw [run_bind_ok hfirst, run_bind_ok (roundsAhead_stop _ (not_fromLevel_of_length hlength)),
          Link.group_nil]
        rfl
  | succ count ih =>
    rw [levelsFrom, run_bind_congr (ih hp (by omega)), joinedWhile, joinedWhile]
    simp only [bind_bind]
    refine run_bind_next fun first p₁ hfirst => ?_
    obtain ⟨ts, hts, -⟩ := (hn.operand hp).answer hfirst
    have hp₁ := hts.ended hp
    change (linksFrom nested (k + 1) >>= _).run p₁ = (linksFrom nested k >>= _).run p₁
    rw [run_bind_congr (linksFrom_split hn hp₁ (k := k))]
    simp only [bind_bind]
    refine run_bind_next fun ls p₂ htighter => ?_
    obtain ⟨us, hus, -⟩ := (hn.linksFrom hp₁).answer htighter
    have hls : ∀ l ∈ ls, k ≤ l.rank :=
      fun l hl => Nat.le_of_succ_le (le_of_linksFrom hn hp₁ htighter l hl)
    have hnext : ∀ q : Parser, q.last.isEnd = true → q.table = p.table →
        (levelsFrom nested count (k + 1)).run q = (joinedWhile (fromLevel (k + 1)) nested).run q := by
      intro q hq htable
      refine ih hq ?_
      rw [htable]
      omega
    exact operatorsUpTo_run hn hnext first hls (hus.ended hp₁) (hus.table.trans hts.table)
      (linksFrom_stopped hn hp₁ htighter) (total_le _)

theorem level_run (hp : p.last.isEnd = true) (k : Nat) :
    (level nested k).run p = (joinedWhile (fromLevel k) nested).run p := by
  rw [level, run_bind_ok (run_state p)]
  exact levelsFrom_run hn hp rfl

theorem level_zero_run (hp : p.last.isEnd = true) : (level nested 0).run p = (joined nested).run p := by
  have hall : fromLevel 0 = fun q => (operatorRank? q).isSome := funext fromLevel_zero
  rw [level_run hn hp, hall]
  rfl

theorem WalksAlways.level (k : Nat) : WalksAlways (level nested k) := fun p hp =>
  (joinedWhile_walks (fun _ => operator_of_fromLevel) (hn.within _) p (.own hp)).congr
    (level_run hn hp k) (level_run hn hp k)

end

/-! ### Expressions -/

theorem nestedExpression_walksAlways (depth : Nat) : WalksAlways (nestedExpression depth) := by
  induction depth with
  | zero => exact fun p _ => .fail rfl rfl
  | succ depth ih => exact fun p hp => joined_walks (ih.within _) p (.own hp)

/-- Climbing is one way to read an expression, of whatever depth its parts may be. -/
theorem nestedClimb_run (depth : Nat) (hp : p.last.isEnd = true) :
    (nestedClimb depth).run p = (nestedExpression depth).run p := by
  induction depth generalizing p with
  | zero => rfl
  | succ depth ih =>
    have hn := nestedExpression_walksAlways depth
    have hclimb : WalksAlways (nestedClimb depth) := fun q hq => (hn q hq).congr (ih hq) (ih hq)
    have hsame : NestedWalks (weight p.ahead) (nestedExpression depth) (nestedClimb depth) :=
      fun q hq => (hn q hq.ended).congr rfl (ih hq.ended)
    rw [nestedClimb, level_zero_run hclimb hp]
    exact (joined_walks hsame p (.own hp)).same

theorem climb_run (hp : p.last.isEnd = true) : climb.run p = expression.run p := by
  rw [climb, expression, run_bind_ok (run_state p), run_bind_ok (run_state p)]
  exact nestedClimb_run _ hp

theorem wholeClimb_run (hp : p.last.isEnd = true) : wholeClimb.run p = whole.run p :=
  run_bind_congr (climb_run hp) _

end EventRules
