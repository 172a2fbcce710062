import EventRules.Rule.Parser.Expression

/-!
# Parser steps that read a piece of the tokens

`Reads m table last ts rest a`: from every place before the tokens `ts ++ rest`, the step `m` passes
just `ts` and answers `a`. The lemmas give one such fact for each elementary step and put them
together along a sequence, so that a construct of the grammar is read off its tokens in the order
in which its definition passes them.
-/

namespace EventRules.Parse
set_option autoImplicit false

open Routine

variable {α β : Type} {table : Precedence} {last : Token} {ts us rest : List Token}

def Reads (m : Parse α) (table : Precedence) (last : Token) (ts rest : List Token) (a : α) : Prop :=
  ∀ passed, m.run ⟨passed, ts ++ rest, last, table⟩ = (.ok a, ⟨ts.reverse ++ passed, rest, last, table⟩)

/-- The token that follows when the tokens `rest` are left. -/
def follower (last : Token) (rest : List Token) : Token := rest.headD last

@[simp] theorem follower_cons (last t : Token) (rest : List Token) :
    follower last (t :: rest) = t := rfl

@[simp] theorem follower_cons_append (last t : Token) (ts rest : List Token) :
    follower last (t :: ts ++ rest) = t := rfl

theorem current_eq_follower (passed : List Token) (table : Precedence) :
    Parser.current ⟨passed, rest, last, table⟩ = follower last rest := by
  cases rest <;> rfl

theorem length_le_of_nonempty {pieces : List (List Token × α)} (h : ∀ p ∈ pieces, p.1 ≠ []) :
    pieces.length ≤ (pieces.flatMap Prod.fst).length := by
  induction pieces with
  | nil => exact Nat.le_refl 0
  | cons p ps ih =>
    have hp := List.length_pos_iff.mpr (h p List.mem_cons_self)
    have hps := ih fun q hq => h q (List.mem_cons_of_mem p hq)
    simp only [List.flatMap_cons, List.length_append, List.length_cons]
    omega

namespace Reads

theorem pure (a : α) : Reads (Pure.pure a) table last [] rest a := fun _ => rfl

theorem bind {m : Parse α} {f : α → Parse β} {a : α} {b : β}
    (hm : Reads m table last ts (us ++ rest) a) (hf : Reads (f a) table last us rest b) :
    Reads (m >>= f) table last (ts ++ us) rest b := by
  intro passed
  have h := hm passed
  rw [← List.append_assoc] at h
  rw [run_bind_ok h, hf, List.reverse_append, List.append_assoc]

/-- A step that passes one token, in front of another one. -/
theorem token_bind {m : Parse α} {f : α → Parse β} {a : α} {b : β} {t : Token}
    (hm : Reads m table last [t] (us ++ rest) a) (hf : Reads (f a) table last us rest b) :
    Reads (m >>= f) table last (t :: us) rest b := bind hm hf

/-- A step that passes nothing, in front of another one. -/
theorem peek {m : Parse α} {f : α → Parse β} {a : α} {b : β}
    (hm : Reads m table last [] (ts ++ rest) a) (hf : Reads (f a) table last ts rest b) :
    Reads (m >>= f) table last ts rest b := bind hm hf

/-- A step in front of one that passes nothing. -/
theorem settle {m : Parse α} {f : α → Parse β} {a : α} {b : β}
    (hm : Reads m table last ts rest a) (hf : Reads (f a) table last [] rest b) :
    Reads (m >>= f) table last ts rest b := by
  rw [← List.append_nil ts]
  exact bind hm hf

theorem state_bind {f : Parser → Parse α} {a : α}
    (h : ∀ passed, Reads (f ⟨passed, ts ++ rest, last, table⟩) table last ts rest a) :
    Reads (state >>= f) table last ts rest a := fun passed => h passed passed

theorem current : Reads Parse.current table last [] rest (follower last rest) := by
  intro passed
  change (Except.ok (Parser.current ⟨passed, rest, last, table⟩), _) = _
  rw [current_eq_follower]
  rfl

theorem sees (test : Token → Bool) :
    Reads (Parse.sees test) table last [] rest (test (follower last rest)) := by
  intro passed
  change (Except.ok (test (Parser.current ⟨passed, rest, last, table⟩)), _) = _
  rw [current_eq_follower]
  rfl

theorem sees_bind {test : Token → Bool} {f : Bool → Parse β} {b : β} (holds : Bool)
    (ht : test (follower last (ts ++ rest)) = holds) (hf : Reads (f holds) table last ts rest b) :
    Reads (Parse.sees test >>= f) table last ts rest b :=
  peek (sees test) (ht ▸ hf)

theorem advance {t : Token} (ht : t.isEnd = false) : Reads advance table last [t] rest t := by
  intro passed
  change (Except.ok t, Parser.advanced ⟨passed, t :: rest, last, table⟩) = _
  simp [Parser.advanced, ht]

protected theorem ofExcept {r : Except ParseError α} {a : α} (h : r = .ok a) :
    Reads (ofExcept r) table last [] rest a := by
  subst h
  exact fun _ => rfl

theorem expect {test : Token → Bool} {expected : Expectation} {t : Token} (h : test t = true)
    (ht : t.isEnd = false) : Reads (expect test expected) table last [t] rest t := by
  exact sees_bind true h (advance ht)

protected theorem expectClosing {isClosing : Token → Bool} {opening t : Token} (h : isClosing t = true)
    (ht : t.isEnd = false) : Reads (expectClosing isClosing opening) table last [t] rest t := by
  refine peek current ?_
  rw [List.singleton_append, follower_cons, if_pos h]
  exact advance ht

protected theorem withTable {m : Parse α} {inner : Precedence} {a : α} (h : Reads m inner last ts rest a) :
    Reads (withTable inner m) table last ts rest a := by
  intro passed
  change ((m.run ⟨passed, ts ++ rest, last, inner⟩).1,
    { (m.run ⟨passed, ts ++ rest, last, inner⟩).2 with table := table }) = _
  rw [h passed]

theorem skip {n : Nat} (hn : ts.length = n) (hts : ∀ t ∈ ts, t.isEnd = false) :
    Reads (skip n) table last ts rest () := by
  induction ts generalizing n with
  | nil =>
    subst hn
    exact pure ()
  | cons t ts ih =>
    subst hn
    have ht : t.isEnd = false := hts t List.mem_cons_self
    exact token_bind (advance ht) (ih rfl fun u hu => hts u (List.mem_cons_of_mem t hu))

/-- What is read piece by piece. A piece begins with a token that satisfies the test; each one is read
whether the next piece follows or what comes behind all of them. -/
protected theorem repeatWhile {test : Token → Bool} {item : Parse α} {pieces : List (List Token × α)}
    (Follows : Token → Prop)
    (hpieces : ∀ piece ∈ pieces, ∃ t us, piece.1 = t :: us ∧ test t = true ∧ Follows t ∧
      ∀ rest, Follows (follower last rest) → Reads item table last piece.1 rest piece.2)
    (hrest : Follows (follower last rest)) (hstop : test (follower last rest) = false)
    {n : Nat} (hn : pieces.length ≤ n) :
    Reads (repeatWhile (fun q => test q.current) item n) table last (pieces.flatMap Prod.fst) rest
      (pieces.map Prod.snd) := by
  induction pieces generalizing n with
  | nil =>
    cases n with
    | zero => exact pure []
    | succ n =>
      refine state_bind fun passed => ?_
      simp only [current_eq_follower, List.flatMap_nil, List.nil_append, hstop]
      exact pure []
  | cons piece pieces ih =>
    cases n with
    | zero => simp at hn
    | succ n =>
      obtain ⟨t, us, hp, ht, -, hread⟩ := hpieces piece List.mem_cons_self
      have hpieces' := fun p hp => hpieces p (List.mem_cons_of_mem piece hp)
      have hnext : Follows (follower last (pieces.flatMap Prod.fst ++ rest)) := by
        cases pieces with
        | nil => exact hrest
        | cons p ps =>
          obtain ⟨u, vs, hu, -, hf, -⟩ := hpieces' p List.mem_cons_self
          rw [List.flatMap_cons, hu]
          exact hf
      have htail := ih hpieces' (by simpa using hn)
      refine state_bind fun passed => ?_
      have hhead : follower last ((piece :: pieces).flatMap Prod.fst ++ rest) = t := by
        simp [hp]
      simp only [current_eq_follower, hhead, ht, if_true]
      exact bind (hread _ hnext) (settle htail (pure _))

/-- Repetition in the grammar: there are always as many rounds as pieces. -/
theorem many {test : Token → Bool} {item : Parse α} {pieces : List (List Token × α)}
    (Follows : Token → Prop)
    (hpieces : ∀ piece ∈ pieces, ∃ t us, piece.1 = t :: us ∧ test t = true ∧ Follows t ∧
      ∀ rest, Follows (follower last rest) → Reads item table last piece.1 rest piece.2)
    (hrest : Follows (follower last rest)) (hstop : test (follower last rest) = false) :
    Reads (many test item) table last (pieces.flatMap Prod.fst) rest (pieces.map Prod.snd) := by
  refine state_bind fun passed => Reads.repeatWhile Follows hpieces hrest hstop ?_
  have hlen : pieces.length ≤ (pieces.flatMap Prod.fst).length := by
    apply length_le_of_nonempty
    intro p hp
    obtain ⟨t, us, ht, -⟩ := hpieces p hp
    exact ht ▸ List.cons_ne_nil t us
  rw [List.length_append]
  omega

theorem many_none {test : Token → Bool} {item : Parse α} (hstop : test (follower last rest) = false) :
    Reads (Parse.many test item) table last [] rest [] := by
  have hpieces : ∀ piece ∈ ([] : List (List Token × α)), ∃ t us, piece.1 = t :: us ∧ test t = true ∧
      True ∧ ∀ rest, True → Reads item table last piece.1 rest piece.2 := by
    intro piece h
    simp at h
  exact many (fun _ => True) hpieces trivial hstop

end Reads

end EventRules.Parse
