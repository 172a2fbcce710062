import EventRules.Proofs.Lowering.Naming
import EventRules.Proofs.Matching.Runs

/-!
# Rules that name a literal

A constant that holds the value of a literal can stand for it in a rule: what can be compiled with the name
and with the literal is compiled to the same code and the same fragments. The exception is a duration
that is the extent of a sampler.
-/

namespace EventRules
set_option autoImplicit false

section

variable {registry : Registry} {constants : List (String × Value)} {source : String} {e : Expr}

theorem selected_of_bare (h : parseSource source = .ok [.bare e]) :
    selected registry constants source = .ok (bindAll constants, e) := by
  rw [selected, h]
  rfl

theorem selected_of_named {name token : Token} {literal : Literal}
    (h : parseSource source = .ok [.declare name (.scalar literal token), .bare e]) :
    selected registry constants source = .ok ((bindAll constants).put name.text literal.value, e) := by
  rw [selected, h]
  rfl

end

/-- A rule that names a literal and one that writes it out are compiled to the same code, except that a
duration may not be named where it is the extent of a sampler. -/
theorem named_literal {registry : Registry} {constants : List (String × Value)} {source source' : String}
    {name token : Token} {literal : Literal} {e e' : Expr} {rule rule' : Rule}
    (hnamed : parseSource source = .ok [.declare name (.scalar literal token), .bare e])
    (hwritten : parseSource source' = .ok [.bare e'])
    (hspells : e.Spells name.text literal token e') (hfree : name.text ∉ e.parameters)
    (hextent : ∀ ms, literal = .duration ms → name.text ∉ e.extents)
    (h : compile registry constants source = .ok rule)
    (h' : compile registry constants source' = .ok rule') :
    rule.entry = rule'.entry ∧ rule.fragments = rule'.fragments := by
  obtain ⟨entry, output, hrun, rfl⟩ := Rule.ofExpr_ok (Rule.of_selected h (selected_of_named hnamed))
  obtain ⟨entry', output', hrun', rfl⟩ := Rule.ofExpr_ok (Rule.of_selected h' (selected_of_bare hwritten))
  have hbinds : Lowering.Binds name.text literal
      ⟨(bindAll constants).put name.text literal.value, registry, none⟩
      ⟨bindAll constants, registry, none⟩ :=
    ⟨rfl, rfl, Keyed.get_put_self _ _ _, fun _ hne => Keyed.get_put_of_ne _ hne _, nofun⟩
  obtain ⟨hentry, houtput⟩ :=
    Lowering.lower_concur e hbinds ⟨hfree, hextent⟩ hspells .empty _ _ _ _ hrun hrun'
  exact ⟨hentry, congrArg Lowering.Output.fragments houtput⟩

/-- The program `let d = 5s; keep(<d,d)`. -/
def keepsNamed : Program → Bool
  | [.declare name (.scalar literal token), .bare (.call ⟨called, strict,
      [.compare op (.ident t), .ident u]⟩)] =>
    decide (name.text = "d" ∧ literal = .duration 5000 ∧ token.unplaced = ⟨.duration, "5s", .nowhere⟩ ∧
      called.unplaced = ⟨.name, "keep", .nowhere⟩ ∧ strict = false ∧ op = .less ∧ t.text = "d" ∧
      u.text = "d")
  | _ => false

/-- The program `keep(<5s,5s)`. -/
def keepsWritten : Program → Bool
  | [.bare (.call ⟨called, strict, [.compare op (.scalar v t), .scalar w u]⟩)] =>
    decide (called.unplaced = ⟨.name, "keep", .nowhere⟩ ∧ strict = false ∧ op = .less ∧
      v = .duration 5000 ∧ t.unplaced = ⟨.duration, "5s", .nowhere⟩ ∧ w = .duration 5000 ∧
      u.unplaced = ⟨.duration, "5s", .nowhere⟩)
  | _ => false

/-- A duration that is compared and that says how long to keep. -/
theorem named_literal_duration :
    ∃ rule rule', compile .empty [] "let d = 5s; keep(<d,d)" = .ok rule ∧
      compile .empty [] "keep(<5s,5s)" = .ok rule' ∧
      rule.entry = rule'.entry ∧ rule.fragments = rule'.fragments := by
  obtain ⟨rule, h, -⟩ := exists_of_any (p := fun _ => true)
    (r := compile .empty [] "let d = 5s; keep(<d,d)") (by decide +kernel)
  obtain ⟨rule', h', -⟩ := exists_of_any (p := fun _ => true)
    (r := compile .empty [] "keep(<5s,5s)") (by decide +kernel)
  obtain ⟨p, hnamed, hp⟩ := exists_of_any (p := keepsNamed) (r := parseSource "let d = 5s; keep(<d,d)")
    (by decide +kernel)
  obtain ⟨p', hwritten, hp'⟩ := exists_of_any (p := keepsWritten) (r := parseSource "keep(<5s,5s)")
    (by decide +kernel)
  rw [keepsNamed.eq_def] at hp
  rw [keepsWritten.eq_def] at hp'
  split at hp
  · next name literal token called strict op t u =>
    obtain ⟨hname, rfl, htoken, hcalled, rfl, rfl, ht, hu⟩ := of_decide_eq_true hp
    split at hp'
    · next called' strict' op' v t' w u' =>
      obtain ⟨hcalled', rfl, rfl, rfl, ht', rfl, hu'⟩ := of_decide_eq_true hp'
      refine ⟨rule, rule', h, h', named_literal hnamed hwritten ?_ List.not_mem_nil ?_ h h'⟩
      · simp [Expr.Spells, Expr.substitute, Expr.substituteAll, Expr.unplaced, Expr.unplacedAll, hname, ht,
          hu, ht', hu', htoken, hcalled, hcalled']
      · intro ms _
        have hkeep : called.text = "keep" := congrArg Token.text hcalled
        simp [Expr.extents, Expr.gather, Expr.gatherAll, Call.extents, Call.IsSampler, hkeep]
    · cases hp'
  · cases hp

/-- The program `let D = 5s; collect().limit(D).sum().meet(>0)`. -/
def limitsNamed : Program → Bool
  | [.declare name (.scalar literal token), .bare (.chain [⟨collect, false, []⟩,
      ⟨limit, false, [.ident t]⟩, ⟨sum, false, []⟩, ⟨meet, false, [.compare op (.scalar v u)]⟩])] =>
    decide (name.text = "D" ∧ literal = .duration 5000 ∧ t.text = "D" ∧
      token.unplaced = ⟨.duration, "5s", .nowhere⟩ ∧ op = .greater ∧ v = .integer 0 ∧
      [collect, limit, sum, meet, u].map Token.unplaced = [⟨.name, "collect", .nowhere⟩,
        ⟨.name, "limit", .nowhere⟩, ⟨.name, "sum", .nowhere⟩, ⟨.name, "meet", .nowhere⟩,
        ⟨.integer, "0", .nowhere⟩])
  | _ => false

/-- The program `collect().limit(5s).sum().meet(>0)`. -/
def limitsWritten : Program → Bool
  | [.bare (.chain [⟨collect, false, []⟩, ⟨limit, false, [.scalar literal token]⟩, ⟨sum, false, []⟩,
      ⟨meet, false, [.compare op (.scalar v u)]⟩])] =>
    decide (literal = .duration 5000 ∧ token.unplaced = ⟨.duration, "5s", .nowhere⟩ ∧ op = .greater ∧
      v = .integer 0 ∧
      [collect, limit, sum, meet, u].map Token.unplaced = [⟨.name, "collect", .nowhere⟩,
        ⟨.name, "limit", .nowhere⟩, ⟨.name, "sum", .nowhere⟩, ⟨.name, "meet", .nowhere⟩,
        ⟨.integer, "0", .nowhere⟩])
  | _ => false

/-- The extent is the exception: by its name the duration counts events. -/
theorem named_extent :
    ∃ (name token : Token) (e e' : Expr) (rule rule' : Rule),
      parseSource "let D = 5s; collect().limit(D).sum().meet(>0)" =
        .ok [.declare name (.scalar (.duration 5000) token), .bare e] ∧
      parseSource "collect().limit(5s).sum().meet(>0)" = .ok [.bare e'] ∧
      e.Spells name.text (.duration 5000) token e' ∧ name.text ∉ e.parameters ∧
      compile .empty [] "let D = 5s; collect().limit(D).sum().meet(>0)" = .ok rule ∧
      compile .empty [] "collect().limit(5s).sum().meet(>0)" = .ok rule' ∧
      rule.entry = rule'.entry ∧ rule.fragments ≠ rule'.fragments := by
  obtain ⟨rule, h, hr⟩ := exists_of_any (p := fun rule => decide (rule.entry = .call "chain_1" 0 ∧
      rule.fragments = [⟨"chain_1", .chain
        ⟨[], some (.limit (.count 5000)), none, .sum, .condition (.compare .greater (.literal (.integer 0))),
          false⟩⟩]))
    (r := compile .empty [] "let D = 5s; collect().limit(D).sum().meet(>0)") (by decide +kernel)
  obtain ⟨rule', h', hr'⟩ := exists_of_any (p := fun rule => decide (rule.entry = .call "chain_1" 0 ∧
      rule.fragments = [⟨"chain_1", .chain
        ⟨[], some (.limit (.duration 5000)), none, .sum,
          .condition (.compare .greater (.literal (.integer 0))), false⟩⟩]))
    (r := compile .empty [] "collect().limit(5s).sum().meet(>0)") (by decide +kernel)
  obtain ⟨p, hnamed, hp⟩ := exists_of_any (p := limitsNamed)
    (r := parseSource "let D = 5s; collect().limit(D).sum().meet(>0)") (by decide +kernel)
  obtain ⟨p', hwritten, hp'⟩ := exists_of_any (p := limitsWritten)
    (r := parseSource "collect().limit(5s).sum().meet(>0)") (by decide +kernel)
  rw [limitsNamed.eq_def] at hp
  rw [limitsWritten.eq_def] at hp'
  obtain ⟨hentry, hfragments⟩ := of_decide_eq_true hr
  obtain ⟨hentry', hfragments'⟩ := of_decide_eq_true hr'
  split at hp
  · next name literal token collect limit t sum meet op v u =>
    obtain ⟨hname, rfl, ht, htoken, rfl, rfl, hcalls⟩ := of_decide_eq_true hp
    split at hp'
    · next collect' limit' literal' token' sum' meet' op' v' u' =>
      obtain ⟨rfl, htoken', rfl, rfl, hcalls'⟩ := of_decide_eq_true hp'
      refine ⟨name, token, _, _, rule, rule', hnamed, hwritten, ?_, List.not_mem_nil, h, h',
        hentry.trans hentry'.symm, ?_⟩
      · have hsame := hcalls'.trans hcalls.symm
        simp only [List.map_cons, List.map_nil, List.cons.injEq, and_true] at hsame
        obtain ⟨hcollect, hlimit, hsum, hmeet, hu⟩ := hsame
        simp [Expr.Spells, Expr.substitute, Expr.substituteCalls, Expr.substituteAll, Expr.unplaced,
          Expr.unplacedCalls, hname, ht, htoken, htoken', hcollect, hlimit, hsum, hmeet, hu]
      · rw [hfragments, hfragments']
        decide
    · cases hp'
  · cases hp

end EventRules
