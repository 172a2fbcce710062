import EventRules.Proofs.Rule.Climbing
import EventRules.Proofs.Rule.RoundTrip

/-!
# Operands joined by operators

Operands with operators of a table between them are read as one tree by a climb through its levels, whatever
the table: the tree whose in-order traversal are these tokens and in which an operation holds no looser one
on its left, and only tighter ones on its right. A tree is cut into its first operand and the links behind
it; grouping the links puts a tree together that respects the levels, and it is the one that was cut.
-/

namespace EventRules
set_option autoImplicit false

theorem BinaryOp.symbol_injective {op op' : BinaryOp} (h : op.symbol = op'.symbol) : op = op' := by
  have hsome : some op = some op' := by rw [← ofSymbol_symbol op, h, ofSymbol_symbol op']
  exact Option.some.inj hsome

/-! ### Trees of operands and operators -/

namespace Expr

/-- The operands and operators of a tree from left to right. -/
def traversal : Expr → List Mark
  | binary op left right => left.traversal ++ .op op.symbol :: right.traversal
  | scalar _ token => [.own token]
  | ident name => [.own name]
  | _ => []

/-- The operation at the root is one of level `k`. -/
def HasLevel (table : Precedence) (k : Nat) : Expr → Prop
  | binary op _ _ => table.IsLevel op.symbol k
  | _ => False

/-- The operands are what their tokens spell, and the operations respect the levels of the table: those
of one level group to the left. -/
inductive Grouped (table : Precedence) : Expr → Prop
  | scalar {value : Literal} {token : Token} : token.isScalar = true →
      Parse.literalOf token = .ok value → Grouped table (scalar value token)
  | ident {name : Token} : name.isName = true → Grouped table (ident name)
  | binary {op : BinaryOp} {left right : Expr} {k : Nat} : table.IsLevel op.symbol k →
      (left.isLeaf = true ∨ ∃ j, left.HasLevel table j ∧ k ≤ j) →
      (right.isLeaf = true ∨ ∃ j, right.HasLevel table j ∧ k < j) →
      Grouped table left → Grouped table right → Grouped table (binary op left right)

/-- The leftmost operand. -/
def first : Expr → Expr
  | binary _ left _ => left.first
  | e => e

/-- The operators from left to right, each with the operand behind it. -/
def links (table : Precedence) : Expr → List Link
  | binary op left right =>
    left.links table ++ ⟨(table.rank? op.symbol).getD 0, op, right.first⟩ :: right.links table
  | _ => []

end Expr

namespace Link

variable {table : Precedence} {first : Expr} {ls before behind : List Link} {root : Link}

/-- The operator stands at its level, and what follows it is an operand. -/
structure Joins (table : Precedence) (l : Link) : Prop where
  level : table.IsLevel l.op.symbol l.rank
  leaf : l.operand.isLeaf = true
  grouped : l.operand.Grouped table

theorem traversal_group (first : Expr) (ls : List Link) :
    (group first ls).traversal =
      first.traversal ++ ls.flatMap fun l => .op l.op.symbol :: l.operand.traversal := by
  induction first, ls using group.induct with
  | case1 first ls h =>
    cases ls with
    | nil => simp
    | cons l ls =>
      obtain ⟨r, hr⟩ := exists_root (l := l) ls
      cases h.symm.trans hr
  | case2 first ls before root behind h _ ihb ihr =>
    rw [group_of_root first h, Expr.traversal, ihb, ihr, eq_of_root h]
    simp

/-- What links are grouped into is the first operand alone or has one of the operators at its root. -/
theorem group_root (first : Expr) (ls : List Link) :
    group first ls = first ∨ ∃ l ∈ ls, ∃ left right, group first ls = .binary l.op left right := by
  cases hroot : root? ls with
  | none => exact Or.inl (group_of_no_root first hroot)
  | some r =>
    obtain ⟨before, root, behind⟩ := r
    refine Or.inr ⟨root, ?_, _, _, group_of_root first hroot⟩
    rw [eq_of_root hroot]
    exact List.mem_append_right _ List.mem_cons_self

theorem grouped_group (hleaf : first.isLeaf = true) (hfirst : first.Grouped table)
    (hls : ∀ l ∈ ls, l.Joins table) : (group first ls).Grouped table := by
  induction first, ls using group.induct with
  | case1 first ls h => rwa [group_of_no_root first h]
  | case2 first ls before root behind h _ ihb ihr =>
    obtain ⟨hbefore, hbehind⟩ := root_least h
    rw [eq_of_root h] at hls
    have hroot := hls root (List.mem_append_right _ List.mem_cons_self)
    have hls_before : ∀ l ∈ before, l.Joins table := fun l hl => hls l (List.mem_append_left _ hl)
    have hls_behind : ∀ l ∈ behind, l.Joins table :=
      fun l hl => hls l (List.mem_append_right _ (List.mem_cons_of_mem _ hl))
    rw [group_of_root first h]
    refine .binary hroot.level ?_ ?_ (ihb hleaf hfirst hls_before)
      (ihr hroot.leaf hroot.grouped hls_behind)
    · rcases group_root first before with heq | ⟨l, hl, left, right, heq⟩
      · rw [heq]
        exact Or.inl hleaf
      · rw [heq]
        exact Or.inr ⟨l.rank, (hls_before l hl).level, hbefore l hl⟩
    · rcases group_root root.operand behind with heq | ⟨l, hl, left, right, heq⟩
      · rw [heq]
        exact Or.inl hroot.leaf
      · rw [heq]
        exact Or.inr ⟨l.rank, (hls_behind l hl).level, hbehind l hl⟩

end Link

namespace Expr

variable {table : Precedence} {e : Expr}

/-- No operator of a tree that respects the levels stands below the level of its root. -/
theorem le_of_mem_links (he : e.Grouped table) {k : Nat}
    (hroot : e.isLeaf = true ∨ ∃ j, e.HasLevel table j ∧ k ≤ j) : ∀ l ∈ e.links table, k ≤ l.rank := by
  induction he generalizing k with
  | scalar => exact nofun
  | ident => exact nofun
  | @binary op left right i hlevel hleft hright _ _ ihl ihr =>
    rcases hroot with hleaf | ⟨j, hj, hkj⟩
    · cases hleaf
    · obtain rfl : i = j := hlevel.unique hj
      have hleft' : left.isLeaf = true ∨ ∃ j, left.HasLevel table j ∧ k ≤ j :=
        hleft.imp_right fun ⟨j, hj, hij⟩ => ⟨j, hj, Nat.le_trans hkj hij⟩
      have hright' : right.isLeaf = true ∨ ∃ j, right.HasLevel table j ∧ k ≤ j :=
        hright.imp_right fun ⟨j, hj, hij⟩ => ⟨j, hj, Nat.le_trans hkj (Nat.le_of_lt hij)⟩
      intro l hl
      rcases List.mem_append.mp hl with hl | hl
      · exact ihl hleft' l hl
      · rcases List.mem_cons.mp hl with rfl | hl
        · rw [Precedence.rank_eq_some_iff.mpr hlevel]
          exact hkj
        · exact ihr hright' l hl

/-- Grouping the links of a tree gives the tree. -/
theorem group_links (he : e.Grouped table) : Link.group e.first (e.links table) = e := by
  induction he with
  | scalar => exact Link.group_nil _
  | ident => exact Link.group_nil _
  | @binary op left right k hlevel hleft hright hl hr ihl ihr =>
    have hrank : (table.rank? op.symbol).getD 0 = k := by
      rw [Precedence.rank_eq_some_iff.mpr hlevel, Option.getD_some]
    have hroot : Link.root? (left.links table ++ ⟨k, op, right.first⟩ :: right.links table) =
        some (left.links table, ⟨k, op, right.first⟩, right.links table) :=
      Link.root_of_least (le_of_mem_links hl hleft) (le_of_mem_links hr (k := k + 1) hright)
    rw [links, first, hrank, Link.group_of_root _ hroot, ihl, ihr]

end Expr

/-! ### Tokens of operands and operators -/

/-- A name, or a literal that is in range. -/
def Token.IsOperand (t : Token) : Prop :=
  t.isName = true ∨ (t.isScalar = true ∧ ∃ value, Parse.literalOf t = .ok value)

/-- The token is an operator of the table. -/
def Precedence.Holds (table : Precedence) (t : Token) : Prop :=
  t.kind = .operator ∧ ∃ level ∈ table.levels, t.text ∈ level

/-- Operands with an operator of the table between each one and the next. -/
inductive Alternates (table : Precedence) : List Token → Prop
  | operand {t : Token} : t.IsOperand → Alternates table [t]
  | joined {t s : Token} {ts : List Token} : t.IsOperand → table.Holds s → Alternates table ts →
      Alternates table (t :: s :: ts)

/-- The operand that a token is. -/
inductive Token.Denotes (t : Token) : Expr → Prop
  | name : t.isName = true → t.Denotes (.ident t)
  | literal {value : Literal} : t.isScalar = true → Parse.literalOf t = .ok value →
      t.Denotes (.scalar value t)

/-- The first operand and the links that tokens spell. -/
inductive Cut (table : Precedence) : List Token → Expr → List Link → Prop
  | operand {t : Token} {e : Expr} : t.Denotes e → Cut table [t] e []
  | joined {t s : Token} {ts : List Token} {e f : Expr} {op : BinaryOp} {k : Nat} {ls : List Link} :
      t.Denotes e → s.kind = .operator → s.text = op.symbol → table.IsLevel op.symbol k →
      Cut table ts f ls → Cut table (t :: s :: ts) e (⟨k, op, f⟩ :: ls)

theorem Token.kind_of_scalar {t : Token} (h : t.isScalar = true) :
    t.kind ≠ .name ∧ t.kind ≠ .operator ∧ t.kind ≠ .endOfInput := by
  refine ⟨?_, ?_, ?_⟩
  all_goals
    intro hk
    simp [isScalar, hk] at h

namespace Token.Denotes

variable {t : Token} {e f : Expr} {table : Precedence}

theorem of_operand (h : t.IsOperand) : ∃ e, t.Denotes e := by
  rcases h with hname | ⟨hscalar, value, hvalue⟩
  · exact ⟨_, .name hname⟩
  · exact ⟨_, .literal hscalar hvalue⟩

protected theorem isLeaf (h : t.Denotes e) : e.isLeaf = true := by
  cases h <;> rfl

theorem traversal (h : t.Denotes e) : e.traversal = [.own t] := by
  cases h <;> rfl

theorem grouped (h : t.Denotes e) : e.Grouped table := by
  cases h with
  | name hname => exact .ident hname
  | literal hscalar hvalue => exact .scalar hscalar hvalue

theorem not_end (h : t.Denotes e) : t.isEnd = false := by
  cases h with
  | name hname => exact not_end_of_name hname
  | literal hscalar => exact not_end_of_kind (kind_of_scalar hscalar).2.2

theorem unique (he : t.Denotes e) (hf : t.Denotes f) : e = f := by
  have hkinds : t.isName = true → t.isScalar = true → False := fun hname hscalar =>
    (kind_of_scalar hscalar).1 (by simpa [Token.isName] using hname)
  cases he with
  | name hname =>
    cases hf with
    | name => rfl
    | literal hscalar => exact (hkinds hname hscalar).elim
  | literal hscalar hvalue =>
    cases hf with
    | name hname => exact (hkinds hname hscalar).elim
    | literal _ hvalue' =>
      cases hvalue.symm.trans hvalue'
      rfl

end Token.Denotes

namespace Cut

variable {table : Precedence} {ts us vs : List Token} {s : Token} {e f : Expr} {ls ms : List Link}
  {op : BinaryOp} {k : Nat}

theorem of_alternates
    (hsymbols : ∀ level ∈ table.levels, ∀ symbol ∈ level, (BinaryOp.ofSymbol? symbol).isSome = true)
    (h : Alternates table ts) : ∃ e ls, Cut table ts e ls := by
  induction h with
  | operand ht =>
    obtain ⟨e, he⟩ := Token.Denotes.of_operand ht
    exact ⟨e, [], .operand he⟩
  | @joined t s ts ht hs _ ih =>
    obtain ⟨e, he⟩ := Token.Denotes.of_operand ht
    obtain ⟨f, ls, hcut⟩ := ih
    obtain ⟨hk, level, hlevel, htext⟩ := hs
    obtain ⟨op, hop⟩ := Option.isSome_iff_exists.mp (hsymbols level hlevel s.text htext)
    obtain ⟨k, hrank⟩ := Precedence.exists_level hlevel htext
    have hsymbol : s.text = op.symbol := (BinaryOp.symbol_ofSymbol hop).symm
    exact ⟨e, ⟨k, op, f⟩ :: ls, .joined he hk hsymbol (hsymbol ▸ hrank) hcut⟩

theorem unique (h : Cut table ts e ls) (h' : Cut table ts f ms) : e = f ∧ ls = ms := by
  induction h generalizing f ms with
  | operand he =>
    cases h' with
    | operand hf => exact ⟨he.unique hf, rfl⟩
  | joined he _ hsymbol hlevel _ ih =>
    cases h' with
    | joined hf _ hsymbol' hlevel' hcut' =>
      obtain ⟨rfl, rfl⟩ := ih hcut'
      obtain rfl := BinaryOp.symbol_injective (hsymbol.symm.trans hsymbol')
      obtain rfl := hlevel.unique hlevel'
      exact ⟨he.unique hf, rfl⟩

theorem append (h : Cut table us e ls) (hk : s.kind = .operator) (hs : s.text = op.symbol)
    (hlevel : table.IsLevel op.symbol k) (h' : Cut table vs f ms) :
    Cut table (us ++ s :: vs) e (ls ++ ⟨k, op, f⟩ :: ms) := by
  induction h with
  | operand he => exact .joined he hk hs hlevel h'
  | joined he hk' hs' hlevel' _ ih => exact .joined he hk' hs' hlevel' ih

/-- A tree whose traversal shows the tokens is cut as they are. -/
theorem of_grouped (he : e.Grouped table) (h : Spells e.traversal ts) :
    Cut table ts e.first (e.links table) := by
  induction he generalizing ts with
  | scalar hscalar hvalue =>
    obtain ⟨t, rfl, rfl⟩ := Spells.singleton_iff.mp h
    exact .operand (.literal hscalar hvalue)
  | ident hname =>
    obtain ⟨t, rfl, rfl⟩ := Spells.singleton_iff.mp h
    exact .operand (.name hname)
  | binary hlevel _ _ _ _ ihl ihr =>
    obtain ⟨us, ws, rfl, hus, hws⟩ := Spells.append_iff.mp h
    obtain ⟨s, vs, rfl, ⟨hk, hs⟩, hvs⟩ := Spells.cons_iff.mp hws
    rw [Expr.links, Expr.first, Precedence.rank_eq_some_iff.mpr hlevel, Option.getD_some]
    exact (ihl hus).append hk hs hlevel (ihr hvs)

theorem first_denoted (h : Cut table ts e ls) : e.isLeaf = true ∧ e.Grouped table := by
  cases h with
  | operand he => exact ⟨he.isLeaf, he.grouped⟩
  | joined he => exact ⟨he.isLeaf, he.grouped⟩

theorem joins (h : Cut table ts e ls) : ∀ l ∈ ls, l.Joins table := by
  induction h with
  | operand => exact nofun
  | joined _ _ _ hlevel hcut ih =>
    obtain ⟨hleaf, hgrouped⟩ := hcut.first_denoted
    intro l hl
    rcases List.mem_cons.mp hl with rfl | hl
    · exact ⟨hlevel, hleaf, hgrouped⟩
    · exact ih l hl

theorem shows (h : Cut table ts e ls) :
    Spells (e.traversal ++ ls.flatMap fun l => .op l.op.symbol :: l.operand.traversal) ts := by
  induction h with
  | operand he =>
    rw [he.traversal]
    exact .cons rfl .nil
  | joined he hk hs _ _ ih =>
    rw [he.traversal]
    exact .cons rfl (.cons ⟨hk, hs⟩ ih)

theorem grouped_group (h : Cut table ts e ls) : (Link.group e ls).Grouped table :=
  Link.grouped_group h.first_denoted.1 h.first_denoted.2 h.joins

theorem group_shows (h : Cut table ts e ls) : Spells (Link.group e ls).traversal ts := by
  rw [Link.traversal_group]
  exact h.shows

theorem last_not_end (h : Cut table ts e ls) : ∃ us t, ts = us ++ [t] ∧ t.isEnd = false := by
  induction h with
  | @operand t _ he => exact ⟨[], t, rfl, he.not_end⟩
  | @joined t s _ _ _ _ _ _ _ _ _ _ _ ih =>
    obtain ⟨us, u, rfl, hu⟩ := ih
    exact ⟨t :: s :: us, u, rfl, hu⟩

/-- There is no other tree that respects the levels. -/
theorem eq_group (h : Cut table ts e ls) (hf : f.Grouped table) (hts : Spells f.traversal ts) :
    f = Link.group e ls := by
  obtain ⟨rfl, rfl⟩ := h.unique (of_grouped hf hts)
  exact (Expr.group_links hf).symm

end Cut

/-! ### Parsing -/

namespace Parse

open Routine

variable {nested : Parse Expr} {table : Precedence} {last t s : Token} {ts rest : List Token} {e f : Expr}
  {ls : List Link}

theorem reads_denoted (h : t.Denotes e) (hrest : Delimits (follower last rest)) :
    Reads (operand nested) table last [t] rest e := by
  have hkind : t.kind ≠ .operator := by
    cases h with
    | name hname => simp [show t.kind = .name by simpa [Token.isName] using hname]
    | literal hscalar => exact (Token.kind_of_scalar hscalar).2.1
  have hprimary : Reads (primary nested) table last [t] rest e := by
    cases h with
    | name hname => exact primary_of_name hname (reads_ident hname hrest)
    | literal hscalar hvalue => exact primary_of_scalar hscalar (reads_scalar hscalar hvalue)
  refine Reads.peek (Reads.many_none ?_) (Reads.settle hprimary (Reads.pure e))
  simp [unary_of_kind hkind]

theorem rank_of_operator {op : BinaryOp} {k : Nat} (hk : s.kind = .operator) (hs : s.text = op.symbol)
    (hlevel : table.IsLevel op.symbol k) (passed : List Token) :
    operatorRank? ⟨passed, s :: rest, last, table⟩ = some k := by
  rw [operatorRank?, current_eq_follower, follower_cons, if_pos hk, hs]
  exact Precedence.rank_eq_some_iff.mpr hlevel

theorem reads_link {op : BinaryOp} {k : Nat} (hk : s.kind = .operator) (hs : s.text = op.symbol)
    (hlevel : table.IsLevel op.symbol k) (he : t.Denotes e) (hrest : Delimits (follower last rest)) :
    Reads (link nested) table last [s, t] rest ⟨k, op, e⟩ := by
  refine Reads.state_bind fun passed => ?_
  have hat : operatorRank? ⟨passed, [s, t] ++ rest, last, table⟩ = some k :=
    rank_of_operator hk hs hlevel passed
  simp only [hat, current_eq_follower, follower_cons_append, hs, BinaryOp.ofSymbol_symbol]
  refine Reads.token_bind (Reads.advance (not_end_of_operator hk)) ?_
  exact Reads.settle (reads_denoted he hrest) (Reads.pure _)

/-- The operands and operators are passed one by one; behind each operand stands an operator or what ends
the expression. -/
theorem reads_cut (nested : Parse Expr) (h : Cut table ts e ls) (hrest : Ends table (follower last rest)) :
    ∃ t us, ts = t :: us ∧ t.Denotes e ∧ Delimits (follower last (us ++ rest)) ∧ ∀ n, us.length ≤ n →
      Reads (repeatWhile (fun q => (operatorRank? q).isSome) (link nested) n) table last us rest ls := by
  induction h with
  | @operand t e he => exact ⟨t, [], rfl, he, hrest.toDelimits, fun n _ => reads_no_links hrest n⟩
  | @joined t s ts e f op k ls he hk hs hlevel _ ih =>
    obtain ⟨u, us, rfl, hf, hdelimits, hlinks⟩ := ih
    refine ⟨t, s :: u :: us, rfl, he, delimits_binary hk hs, fun n hn => ?_⟩
    obtain ⟨m, rfl⟩ : ∃ m, n = m + 1 := ⟨n - 1, by simp only [List.length_cons] at hn; omega⟩
    simp only [List.length_cons] at hn
    refine Reads.state_bind fun passed => ?_
    have hat : operatorRank? ⟨passed, s :: u :: us ++ rest, last, table⟩ = some k :=
      rank_of_operator hk hs hlevel passed
    simp only [hat, Option.isSome_some, if_true]
    have hlink : Reads (link nested) table last [s, u] (us ++ rest) ⟨k, op, f⟩ :=
      reads_link hk hs hlevel hf hdelimits
    change Reads _ table last ([s, u] ++ us) rest _
    exact Reads.bind hlink (Reads.settle (hlinks m (by omega)) (Reads.pure _))

theorem joined_cut (h : Cut table ts e ls) (hrest : Ends table (follower last rest)) :
    Reads (joined nested) table last ts rest (Link.group e ls) := by
  obtain ⟨t, us, rfl, he, hdelimits, hlinks⟩ := reads_cut nested h hrest
  refine Reads.token_bind (reads_denoted he hdelimits) (Reads.state_bind fun passed => ?_)
  exact Reads.settle (hlinks _ (by simp)) (Reads.pure _)

theorem whole_cut (h : Cut table ts e ls) (hlast : last.isEnd = true) :
    Reads whole table last ts [] (Link.group e ls) := by
  have hrest : Ends table (follower last []) := ends_end hlast table
  have hexpression : Reads expression table last ts [] (Link.group e ls) := by
    refine Reads.state_bind fun passed => ?_
    exact joined_cut h hrest
  refine Reads.settle hexpression ?_
  exact Reads.peek (Reads.sees_bind true hlast (Reads.pure ())) (Reads.pure _)

end Parse

/-- Climbing through the levels of a table reads operands joined by its operators as a tree that shows them in
their order and respects the levels, and there is no other such tree. -/
theorem parse_joined {table : Precedence} {ts : List Token}
    (hsymbols : ∀ level ∈ table.levels, ∀ symbol ∈ level, (BinaryOp.ofSymbol? symbol).isSome = true)
    (hts : Alternates table ts) :
    ∃ e, (Parse.wholeClimb.run (Parser.ofTokens ts table)).1 = .ok e ∧
      Parse.whole.run (Parser.ofTokens ts table) = Parse.wholeClimb.run (Parser.ofTokens ts table) ∧
      Spells e.traversal ts ∧ e.Grouped table ∧
      ∀ f : Expr, Spells f.traversal ts → f.Grouped table → f = e := by
  obtain ⟨first, ls, hcut⟩ := Cut.of_alternates hsymbols hts
  have hclimb : Parse.wholeClimb.run (Parser.ofTokens ts table) = Parse.whole.run (Parser.ofTokens ts table) :=
    wholeClimb_run (Parser.ofTokens_last ts table)
  refine ⟨Link.group first ls, ?_, hclimb.symm, hcut.group_shows, hcut.grouped_group,
    fun f hshows hf => hcut.eq_group hf hshows⟩
  obtain ⟨us, t, hlast, ht⟩ := hcut.last_not_end
  have hrun := Parse.whole_cut hcut (Parser.endBehind_isEnd ts) []
  rw [List.append_nil] at hrun
  rw [hclimb, Parser.ofTokens_open hlast ht, hrun]

/-- A table with an empty level and with symbols on several levels: `a<1-b+c<d`, where `+` binds least. -/
theorem parse_joined_repeated_symbols :
    let table : Precedence := ⟨[["<", "+"], [], ["-", "<"], ["-"]]⟩
    let name (s : String) : Token := ⟨.name, s, .nowhere⟩
    let op (s : String) : Token := ⟨.operator, s, .nowhere⟩
    let one : Token := ⟨.integer, "1", .nowhere⟩
    let ts := [name "a", op "<", one, op "-", name "b", op "+", name "c", op "<", name "d"]
    let small : Expr := .scalar (.integer 1) one
    let e : Expr := .binary .add
      (.binary (.compare .less) (.ident (name "a")) (.binary .subtract small (.ident (name "b"))))
      (.binary (.compare .less) (.ident (name "c")) (.ident (name "d")))
    (∀ level ∈ table.levels, ∀ symbol ∈ level, (BinaryOp.ofSymbol? symbol).isSome = true) ∧
      Alternates table ts ∧ (Parse.wholeClimb.run (Parser.ofTokens ts table)).1 = .ok e := by
  intro table name op one ts small e
  have hsymbols : ∀ level ∈ table.levels, ∀ symbol ∈ level,
      (BinaryOp.ofSymbol? symbol).isSome = true := by decide
  have hname : ∀ s, (name s).IsOperand := fun s => Or.inl rfl
  have hone : one.IsOperand := Or.inr ⟨rfl, .integer 1, by decide⟩
  have hts : Alternates table ts :=
    .joined (hname "a") ⟨rfl, ["-", "<"], by decide, by decide⟩
      (.joined hone ⟨rfl, ["-"], by decide, by decide⟩
        (.joined (hname "b") ⟨rfl, ["<", "+"], by decide, by decide⟩
          (.joined (hname "c") ⟨rfl, ["<", "+"], by decide, by decide⟩ (.operand (hname "d")))))
  obtain ⟨f, hparse, -, -, -, hunique⟩ := parse_joined hsymbols hts
  have hshows : Spells e.traversal ts :=
    .cons rfl (.cons ⟨rfl, rfl⟩ (.cons rfl (.cons ⟨rfl, rfl⟩ (.cons rfl (.cons ⟨rfl, rfl⟩
      (.cons rfl (.cons ⟨rfl, rfl⟩ (.cons rfl .nil))))))))
  have hlevel : ∀ {symbol k}, table.rank? symbol = some k → table.IsLevel symbol k :=
    Precedence.rank_eq_some_iff.mp
  have hsmall : (Expr.binary .subtract small (.ident (name "b"))).Grouped table :=
    .binary (hlevel (k := 3) (by decide)) (Or.inl rfl) (Or.inl rfl) (.scalar rfl (by decide)) (.ident rfl)
  have hleft : (Expr.binary (.compare .less) (.ident (name "a"))
      (.binary .subtract small (.ident (name "b")))).Grouped table :=
    .binary (hlevel (k := 2) (by decide)) (Or.inl rfl)
      (Or.inr ⟨3, hlevel (by decide), by decide⟩) (.ident rfl) hsmall
  have hright : (Expr.binary (.compare .less) (.ident (name "c")) (.ident (name "d"))).Grouped table :=
    .binary (hlevel (k := 2) (by decide)) (Or.inl rfl) (Or.inl rfl) (.ident rfl) (.ident rfl)
  have hgrouped : e.Grouped table :=
    .binary (hlevel (k := 0) (by decide)) (Or.inr ⟨2, hlevel (by decide), by decide⟩)
      (Or.inr ⟨2, hlevel (by decide), by decide⟩) hleft hright
  exact ⟨hsymbols, hts, hunique e hshows hgrouped ▸ hparse⟩

end EventRules
