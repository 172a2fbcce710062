import EventRules.Proofs.Rule.Rendering
import EventRules.Proofs.Rule.Unplaced

/-!
# Two spellings of an arrow of equality stages

`Spells (arrowMarks values)` and `Spells (shorthandMarks values)` say that tokens read
`\x7b==v\x7d->…->\x7b==w\x7d` or `<v,…,w>`, at any places. The expansion of the second is the first up to places,
and places matter to the parser for names and for the sign of a strict call only: all lookaheads answer
alike on tokens that are alike.
-/

namespace EventRules
set_option autoImplicit false

namespace Token

/-- Tokens that may stand for one another. -/
structure Alike (t u : Token) : Prop where
  kind : t.kind = u.kind
  text : t.text = u.text
  placed : t.isName = true ∨ t.isOperator "!" = true → t = u

namespace Alike

variable {t u : Token}

theorem refl (t : Token) : Alike t t := ⟨rfl, rfl, fun _ => rfl⟩

theorem unplaced (h : Alike t u) : t.unplaced = u.unplaced := by
  rw [Token.unplaced, Token.unplaced, h.kind, h.text]

theorem isOperator_eq (h : Alike t u) (s : String) : t.isOperator s = u.isOperator s := by
  rw [isOperator, isOperator, h.kind, h.text]

theorem isBracket_eq (h : Alike t u) (s : String) : t.isBracket s = u.isBracket s := by
  rw [isBracket, isBracket, h.kind, h.text]

theorem isKeyword_eq (h : Alike t u) (s : String) : t.isKeyword s = u.isKeyword s := by
  rw [isKeyword, isKeyword, h.kind, h.text]

theorem isName_eq (h : Alike t u) : t.isName = u.isName := by rw [isName, isName, h.kind]

theorem isEnd_eq (h : Alike t u) : t.isEnd = u.isEnd := by rw [isEnd, isEnd, h.kind]

theorem isScalar_eq (h : Alike t u) : t.isScalar = u.isScalar := by rw [isScalar, isScalar, h.kind]

theorem is_value (h : Alike t u) : t.isShorthandValue = u.isShorthandValue := by
  rw [isShorthandValue, isShorthandValue, h.isScalar_eq, h.kind]

theorem opensGroup_eq (h : Alike t u) : t.opensGroup = u.opensGroup := by
  rw [opensGroup, opensGroup, h.text]

end Alike

/-! ### The bound on the rounds of a loop -/

/-- What a token counts for in the bound on the rounds of a loop. Each round passes tokens of size 2 at
least, and no shorthand is smaller than what it expands to. -/
def size (t : Token) : Nat :=
  if t.isBracket "\x7b" || t.isBracket "\x7d" then 0
  else if t.isOperator "==" || t.isOperator "->" then 1
  else 2

theorem size_le (t : Token) : t.size ≤ 2 := by
  rw [size]
  split
  · omega
  · split <;> omega

theorem Alike.size_eq {t u : Token} (h : Alike t u) : t.size = u.size := by
  rw [size, size, h.isBracket_eq, h.isBracket_eq, h.isOperator_eq, h.isOperator_eq]

/-- What a token counts for in the bound on the depth of expressions. -/
def weight (t : Token) : Nat :=
  if t.isOperator "," then 4 else if t.isOperator "<" then 3 else 1

theorem size_of_kind {t : Token} (hb : t.kind ≠ .bracket) (ho : t.kind ≠ .operator) : t.size = 2 := by
  simp [size, isBracket, isOperator, hb, ho]

theorem size_of_operator {t : Token} (h : t.kind = .operator) : 1 ≤ t.size := by
  simp only [size, isBracket, h]
  split
  · next h => simp at h
  · split <;> omega

theorem size_of_other_operator {t : Token} {s : String} (h : t.isOperator s = true)
    (hs : s ≠ "==" ∧ s ≠ "->") : t.size = 2 := by
  obtain ⟨hk, rfl⟩ := operator_of_isOperator h
  simp [size, isBracket, isOperator, hk, hs]

theorem size_of_other_bracket {t : Token} {s : String} (h : t.isBracket s = true)
    (hs : s ≠ "\x7b" ∧ s ≠ "\x7d") : t.size = 2 := by
  obtain ⟨hk, rfl⟩ := bracket_of_isBracket h
  simp [size, isBracket, isOperator, hk, hs]

/-- What tokens count for together. -/
def tally (f : Token → Nat) : List Token → Nat
  | [] => 0
  | t :: ts => f t + tally f ts

theorem tally_append (f : Token → Nat) (ts us : List Token) :
    tally f (ts ++ us) = tally f ts + tally f us := by
  induction ts with
  | nil => exact (Nat.zero_add _).symm
  | cons t ts ih => rw [List.cons_append, tally, ih, tally, Nat.add_assoc]

/-- The size of a list of tokens. -/
def total (ts : List Token) : Nat := tally size ts

theorem total_cons (t : Token) (ts : List Token) : total (t :: ts) = t.size + total ts := rfl

theorem total_append (ts us : List Token) : total (ts ++ us) = total ts + total us :=
  tally_append size ts us

theorem total_le (ts : List Token) : total ts ≤ 2 * ts.length := by
  induction ts with
  | nil => exact Nat.le_refl 0
  | cons t ts ih =>
    have ht := size_le t
    rw [total_cons, List.length_cons]
    omega

end Token

open Token

/-! ### The spellings -/

/-- The mark of a value, at any place. -/
def valueMark (v : Token) : Mark := .sign v.kind v.text

def equalityMarks (v : Token) : List Mark := [.br "\x7b", .op "==", valueMark v, .br "\x7d"]

/-- The arrow of equality stages. -/
def arrowMarks (values : List Token) : List Mark := separated "->" (values.map equalityMarks)

/-- The values behind the opening sign of a shorthand, up to its closing sign. -/
def listedMarks (values : List Token) : List Mark :=
  separated "," (values.map fun v => [valueMark v]) ++ [.op ">"]

/-- The same for just these tokens, each one in its place. -/
def ownListedMarks (values : List Token) : List Mark :=
  separated "," (values.map fun v => [.own v]) ++ [.op ">"]

/-- The shorthand. -/
def shorthandMarks (values : List Token) : List Mark := .op "<" :: listedMarks values

theorem listedMarks_cons (v w : Token) (values : List Token) :
    listedMarks (v :: w :: values) = valueMark v :: .op "," :: listedMarks (w :: values) := rfl

theorem ownListedMarks_cons (v w : Token) (values : List Token) :
    ownListedMarks (v :: w :: values) = .own v :: .op "," :: ownListedMarks (w :: values) := rfl

/-- A mark that tells no places. -/
def Mark.Plain (m : Mark) : Prop := ∀ t u, m.Shows t → m.Shows u → t.Alike u

theorem sign_plain {kind : TokenKind} {text : String} (hk : kind ≠ .name)
    (ht : kind = .operator → text ≠ "!") : (Mark.sign kind text).Plain := by
  rintro t u ⟨rfl, rfl⟩ ⟨huk, hut⟩
  refine ⟨huk.symm, hut.symm, ?_⟩
  rintro (h | h)
  · exact absurd (by simpa [isName] using h) hk
  · obtain ⟨h, h'⟩ := operator_of_isOperator h
    exact absurd h' (ht h)

theorem value_plain {v : Token} (h : v.isScalar = true) : (valueMark v).Plain := by
  apply sign_plain
  · intro hk
    simp [isScalar, hk] at h
  · intro hk
    simp [isScalar, hk] at h

theorem mem_arrowMarks {values : List Token} {m : Mark} (h : m ∈ arrowMarks values) :
    m = .br "\x7b" ∨ m = .br "\x7d" ∨ m = .op "==" ∨ m = .op "->" ∨ ∃ v ∈ values, m = valueMark v := by
  have hstage : ∀ v ∈ values, m ∈ equalityMarks v → m = .br "\x7b" ∨ m = .br "\x7d" ∨ m = .op "==" ∨
      m = .op "->" ∨ ∃ v ∈ values, m = valueMark v := by
    intro v hv hm
    simp only [equalityMarks, List.mem_cons, List.not_mem_nil, or_false] at hm
    rcases hm with rfl | rfl | rfl | rfl
    · exact Or.inl rfl
    · exact Or.inr (Or.inr (Or.inl rfl))
    · exact Or.inr (Or.inr (Or.inr (Or.inr ⟨v, hv, rfl⟩)))
    · exact Or.inr (Or.inl rfl)
  cases values with
  | nil => cases h
  | cons v vs =>
    rcases List.mem_append.mp h with h | h
    · exact hstage v List.mem_cons_self h
    · obtain ⟨piece, hp, h⟩ := List.mem_flatMap.mp h
      obtain ⟨w, hw, rfl⟩ := List.mem_map.mp hp
      rcases List.mem_cons.mp h with rfl | h
      · exact Or.inr (Or.inr (Or.inr (Or.inl rfl)))
      · exact hstage w (List.mem_cons_of_mem v hw) h

theorem arrow_plain {values : List Token} (h : ∀ v ∈ values, v.isScalar = true) :
    ∀ m ∈ arrowMarks values, m.Plain := by
  have hsign : ∀ {kind : TokenKind} {s : String}, kind ≠ .name → s ≠ "!" →
      (Mark.sign kind s).Plain := fun hk hs => sign_plain hk fun _ => hs
  intro m hm
  rcases mem_arrowMarks hm with rfl | rfl | rfl | rfl | ⟨v, hv, rfl⟩
  · exact hsign (by decide) (by decide)
  · exact hsign (by decide) (by decide)
  · exact hsign (by decide) (by decide)
  · exact hsign (by decide) (by decide)
  · exact value_plain (h v hv)

theorem mem_shorthandMarks {values : List Token} {m : Mark} (h : m ∈ shorthandMarks values) :
    m = .op "<" ∨ m = .op "," ∨ m = .op ">" ∨ ∃ v ∈ values, m = valueMark v := by
  rcases List.mem_cons.mp h with rfl | h
  · exact Or.inl rfl
  rcases List.mem_append.mp h with h | h
  · cases values with
    | nil => cases h
    | cons v vs =>
      rcases List.mem_cons.mp h with rfl | h
      · exact Or.inr (Or.inr (Or.inr ⟨v, List.mem_cons_self, rfl⟩))
      · obtain ⟨piece, hp, h⟩ := List.mem_flatMap.mp h
        obtain ⟨w, hw, rfl⟩ := List.mem_map.mp hp
        rcases List.mem_cons.mp h with rfl | h
        · exact Or.inr (Or.inl rfl)
        · obtain rfl := List.mem_singleton.mp h
          exact Or.inr (Or.inr (Or.inr ⟨w, List.mem_cons_of_mem v hw, rfl⟩))
  · obtain rfl := List.mem_singleton.mp h
    exact Or.inr (Or.inr (Or.inl rfl))

theorem shorthand_plain {values : List Token} (h : ∀ v ∈ values, v.isScalar = true) :
    ∀ m ∈ shorthandMarks values, m.Plain := by
  have hsign : ∀ {s : String}, s ≠ "!" → (Mark.op s).Plain :=
    fun hs => sign_plain (by decide) fun _ => hs
  intro m hm
  rcases mem_shorthandMarks hm with rfl | rfl | rfl | ⟨v, hv, rfl⟩
  · exact hsign (by decide)
  · exact hsign (by decide)
  · exact hsign (by decide)
  · exact value_plain (h v hv)

theorem arrowMarks_end {values : List Token} (h : values ≠ []) :
    ∃ ms, arrowMarks values = ms ++ [.br "\x7d"] := by
  induction values with
  | nil => exact absurd rfl h
  | cons v vs ih =>
    cases vs with
    | nil => exact ⟨[.br "\x7b", .op "==", valueMark v], rfl⟩
    | cons w vs =>
      obtain ⟨ms, hms⟩ := ih (by simp)
      refine ⟨equalityMarks v ++ .op "->" :: ms, ?_⟩
      rw [List.append_assoc, List.cons_append, ← hms]
      rfl

theorem alike_of_spelled {ms : List Mark} {ts us : List Token} (hp : ∀ m ∈ ms, m.Plain)
    (ht : Spells ms ts) (hu : Spells ms us) : List.Forall₂ Alike ts us := by
  induction ht generalizing us with
  | nil =>
    cases hu
    exact .nil
  | @cons m t ms ts hm _ ih =>
    cases hu with
    | cons hm' hu =>
      have hp' := fun n hn => hp n (List.mem_cons_of_mem m hn)
      exact .cons (hp m List.mem_cons_self t _ hm hm') (ih hp' hu)

theorem value_of_shown {v t : Token} (h : (valueMark v).Shows t) :
    t.isShorthandValue = v.isShorthandValue ∧ t.isScalar = v.isScalar ∧ valueMark t = valueMark v := by
  obtain ⟨hk, ht⟩ := h
  refine ⟨?_, ?_, ?_⟩
  · rw [isShorthandValue, isShorthandValue, isScalar, isScalar, hk]
  · rw [isScalar, isScalar, hk]
  · rw [valueMark, valueMark, hk, ht]

theorem scalar_of_value {v : Token} (h : v.isShorthandValue = true) : v.isScalar = true := by
  rw [isShorthandValue, Bool.and_eq_true] at h
  exact h.1

theorem not_scalar_of_shows {s : String} {t : Token} (h : (Mark.op s).Shows t) :
    ¬ t.isScalar = true := by
  simp [isScalar, h.1]

/-- Tokens that list values are a list with their marks, and have no other literals. -/
theorem listed_of_own {values us : List Token} (hvalues : ∀ v ∈ values, v.isScalar = true)
    (h : Spells (ownListedMarks values) us) :
    Spells (listedMarks values) us ∧ us.filter isScalar = values := by
  induction values generalizing us with
  | nil =>
    obtain ⟨c, rfl, hc⟩ := Spells.singleton_iff.mp h
    exact ⟨.cons hc .nil, List.filter_cons_of_neg (not_scalar_of_shows hc)⟩
  | cons v vs ih =>
    have hv := hvalues v List.mem_cons_self
    cases vs with
    | nil =>
      obtain ⟨t, ts, rfl, rfl, hts⟩ := Spells.cons_iff.mp h
      obtain ⟨c, rfl, hc⟩ := Spells.singleton_iff.mp hts
      refine ⟨.cons ⟨rfl, rfl⟩ (.cons hc .nil), ?_⟩
      rw [List.filter_cons_of_pos hv, List.filter_cons_of_neg (not_scalar_of_shows hc), List.filter_nil]
    | cons w vs =>
      rw [ownListedMarks_cons] at h
      obtain ⟨t, ts, rfl, rfl, hts⟩ := Spells.cons_iff.mp h
      obtain ⟨c, cs, rfl, hc, hcs⟩ := Spells.cons_iff.mp hts
      obtain ⟨hspelled, hscalars⟩ := ih (fun x hx => hvalues x (List.mem_cons_of_mem _ hx)) hcs
      rw [List.filter_cons_of_pos hv, List.filter_cons_of_neg (not_scalar_of_shows hc), hscalars,
        listedMarks_cons]
      exact ⟨.cons ⟨rfl, rfl⟩ (.cons hc hspelled), rfl⟩

theorem shorthand_of_own {values span : List Token} (hvalues : ∀ v ∈ values, v.isScalar = true)
    (h : Spells (.op "<" :: ownListedMarks values) span) :
    Spells (shorthandMarks values) span ∧ span.filter isScalar = values := by
  obtain ⟨t, us, rfl, ht, hus⟩ := Spells.cons_iff.mp h
  obtain ⟨hlisted, hscalars⟩ := listed_of_own hvalues hus
  rw [List.filter_cons_of_neg (not_scalar_of_shows ht)]
  exact ⟨.cons ht hlisted, hscalars⟩

/-! ### The shorthand and its expansion -/

/-- Values behind the opening sign, with the sign that closes them, are taken for what they are. -/
theorem shorthandValues_of_spelled {values us : List Token} (hne : values ≠ [])
    (hvalues : ∀ v ∈ values, v.isShorthandValue = true) (hus : Spells (listedMarks values) us)
    (rest : List Token) : shorthandValues? (us ++ rest) = some us.length := by
  induction values generalizing us with
  | nil => exact absurd rfl hne
  | cons v vs ih =>
    have hv := hvalues v List.mem_cons_self
    cases vs with
    | nil =>
      obtain ⟨t, ts, rfl, ht, hts⟩ := Spells.cons_iff.mp hus
      obtain ⟨c, rfl, hc⟩ := Spells.singleton_iff.mp hts
      have hcomma : c.isOperator "," = false := by simp [isOperator, hc.1, hc.2]
      simp [shorthandValues?, (value_of_shown ht).1, hv, hcomma, operator_of_shows hc]
    | cons w vs =>
      rw [listedMarks_cons] at hus
      obtain ⟨t, ts, rfl, ht, hts⟩ := Spells.cons_iff.mp hus
      obtain ⟨c, cs, rfl, hc, hcs⟩ := Spells.cons_iff.mp hts
      have hrest := ih (by simp) (fun x hx => hvalues x (List.mem_cons_of_mem v hx)) hcs
      simp [shorthandValues?, (value_of_shown ht).1, hv, operator_of_shows hc, hrest]

theorem shorthandEnd_of_spelled {values span : List Token} (hne : values ≠ [])
    (hvalues : ∀ v ∈ values, v.isShorthandValue = true) (h : Spells (shorthandMarks values) span) :
    ∃ n, span.length = n + 1 ∧ ∀ rest, shorthandEnd? (span ++ rest) = some n := by
  obtain ⟨t, us, rfl, ht, hus⟩ := Spells.cons_iff.mp h
  refine ⟨us.length, rfl, fun rest => ?_⟩
  rw [List.cons_append, shorthandEnd?, if_pos (operator_of_shows ht),
    shorthandValues_of_spelled hne hvalues hus]

/-- What is taken for values behind the opening sign. -/
theorem own_of_shorthandValues {ts : List Token} {n : Nat} (h : shorthandValues? ts = some n) :
    ∃ values us rest, ts = us ++ rest ∧ us.length = n ∧ values ≠ [] ∧
      (∀ v ∈ values, v.isShorthandValue = true) ∧ Spells (ownListedMarks values) us := by
  induction ts using shorthandValues?.induct generalizing n with
  | case1 v c ts hv hc ih =>
    rw [shorthandValues?, if_pos hv, if_pos hc] at h
    obtain ⟨m, hm, rfl⟩ := Option.map_eq_some_iff.mp h
    obtain ⟨values, us, rest, rfl, rfl, hne, hvalues, hus⟩ := ih hm
    obtain ⟨w, ws, rfl⟩ := List.exists_cons_of_ne_nil hne
    have hc := operator_of_isOperator hc
    refine ⟨v :: w :: ws, v :: c :: us, rest, rfl, rfl, by simp, ?_, ?_⟩
    · intro x hx
      rcases List.mem_cons.mp hx with rfl | hx
      · exact hv
      · exact hvalues x hx
    · rw [ownListedMarks_cons]
      exact .cons rfl (.cons hc hus)
  | case2 v c ts hv hc hc' =>
    rw [shorthandValues?, if_pos hv, if_neg hc, if_pos hc'] at h
    have hc' := operator_of_isOperator hc'
    cases h
    refine ⟨[v], [v, c], ts, rfl, rfl, by simp, ?_, .cons rfl (.cons hc' .nil)⟩
    intro x hx
    rw [List.mem_singleton.mp hx]
    exact hv
  | case3 v c ts hv hc hc' =>
    rw [shorthandValues?, if_pos hv, if_neg hc, if_neg hc'] at h
    cases h
  | case4 v c ts hv =>
    rw [shorthandValues?, if_neg hv] at h
    cases h
  | case5 ts hts =>
    rw [shorthandValues?] at h
    · cases h
    · exact hts

theorem own_of_shorthandEnd {ts : List Token} {n : Nat} (h : shorthandEnd? ts = some n) :
    ∃ values span rest, ts = span ++ rest ∧ span.length = n + 1 ∧ values ≠ [] ∧
      (∀ v ∈ values, v.isShorthandValue = true) ∧ Spells (.op "<" :: ownListedMarks values) span := by
  cases ts with
  | nil => cases h
  | cons t ts =>
    rw [shorthandEnd?] at h
    split at h
    · next ht =>
      obtain ⟨values, us, rest, rfl, rfl, hne, hvalues, hus⟩ := own_of_shorthandValues h
      have ht := operator_of_isOperator ht
      exact ⟨values, t :: us, rest, rfl, rfl, hne, hvalues, .cons ht hus⟩
    · cases h

theorem spelled_of_shorthandEnd {ts : List Token} {n : Nat} (h : shorthandEnd? ts = some n) :
    ∃ values span rest, ts = span ++ rest ∧ span.length = n + 1 ∧ values ≠ [] ∧
      (∀ v ∈ values, v.isShorthandValue = true) ∧ Spells (shorthandMarks values) span := by
  obtain ⟨values, span, rest, hts, hlen, hne, hvalues, hspan⟩ := own_of_shorthandEnd h
  have hscalar := fun v hv => scalar_of_value (hvalues v hv)
  exact ⟨values, span, rest, hts, hlen, hne, hvalues, (shorthand_of_own hscalar hspan).1⟩

/-- The scalars of a shorthand are its values. -/
theorem scalars_of_listed {values us : List Token}
    (hvalues : ∀ v ∈ values, v.isShorthandValue = true) (hus : Spells (listedMarks values) us) :
    (us.filter isScalar).map valueMark = values.map valueMark := by
  induction values generalizing us with
  | nil =>
    obtain ⟨c, rfl, hc⟩ := Spells.singleton_iff.mp hus
    rw [List.filter_cons_of_neg (not_scalar_of_shows hc)]
    rfl
  | cons v vs ih =>
    have hv := scalar_of_value (hvalues v List.mem_cons_self)
    cases vs with
    | nil =>
      obtain ⟨t, ts, rfl, ht, hts⟩ := Spells.cons_iff.mp hus
      obtain ⟨c, rfl, hc⟩ := Spells.singleton_iff.mp hts
      obtain ⟨-, hscalar, hmark⟩ := value_of_shown ht
      rw [List.filter_cons_of_pos (hscalar.trans hv), List.filter_cons_of_neg (not_scalar_of_shows hc)]
      simp [hmark]
    | cons w vs =>
      rw [listedMarks_cons] at hus
      obtain ⟨t, ts, rfl, ht, hts⟩ := Spells.cons_iff.mp hus
      obtain ⟨c, cs, rfl, hc, hcs⟩ := Spells.cons_iff.mp hts
      obtain ⟨-, hscalar, hmark⟩ := value_of_shown ht
      rw [List.filter_cons_of_pos (hscalar.trans hv), List.filter_cons_of_neg (not_scalar_of_shows hc),
        List.map_cons, hmark, ih (fun x hx => hvalues x (List.mem_cons_of_mem v hx)) hcs]
      rfl

theorem equalityStage_spelled (v : Token) : Spells (equalityMarks v) (equalityStage v) :=
  .cons ⟨rfl, rfl⟩ (.cons ⟨rfl, rfl⟩ (.cons ⟨rfl, rfl⟩ (.cons ⟨rfl, rfl⟩ .nil)))

/-- Arrows of the same values have the same marks. -/
theorem arrowMarks_congr {values values' : List Token}
    (h : values.map valueMark = values'.map valueMark) : arrowMarks values = arrowMarks values' := by
  have hmap : ∀ vs : List Token, vs.map equalityMarks =
      (vs.map valueMark).map fun m => [.br "\x7b", .op "==", m, .br "\x7d"] := by
    intro vs
    rw [List.map_map]
    rfl
  rw [arrowMarks, arrowMarks, hmap, hmap, h]

theorem expansion_spelled (span : List Token) :
    Spells (arrowMarks (span.filter isScalar)) (expandShorthand span) := by
  have hjoined : ∀ vs : List Token, Spells ((vs.map equalityMarks).flatMap (.op "->" :: ·))
      (vs.flatMap fun v => ⟨.operator, "->", v.position⟩ :: equalityStage v) := by
    intro vs
    induction vs with
    | nil => exact .nil
    | cons v vs ih =>
      have hstage : Spells (.op "->" :: equalityMarks v)
          (⟨.operator, "->", v.position⟩ :: equalityStage v) :=
        .cons ⟨rfl, rfl⟩ (equalityStage_spelled v)
      exact Spells.append_iff.mpr ⟨_, _, rfl, hstage, ih⟩
  rw [expandShorthand]
  cases span.filter isScalar with
  | nil => exact .nil
  | cons v vs => exact Spells.append_iff.mpr ⟨_, _, rfl, equalityStage_spelled v, hjoined vs⟩

/-- A shorthand expands to the arrow of its values. -/
theorem expansion_of_shorthand {values span : List Token}
    (hvalues : ∀ v ∈ values, v.isShorthandValue = true) (h : Spells (shorthandMarks values) span) :
    Spells (arrowMarks values) (expandShorthand span) := by
  obtain ⟨t, us, rfl, ⟨hk, -⟩, hus⟩ := Spells.cons_iff.mp h
  have ht : ¬ t.isScalar = true := by simp [isScalar, hk]
  have hspelled := expansion_spelled (t :: us)
  rwa [List.filter_cons_of_neg ht, arrowMarks_congr (scalars_of_listed hvalues hus)] at hspelled

theorem expansion_alike {ts us : List Token} (h : List.Forall₂ Alike ts us) :
    List.Forall₂ Alike (expandShorthand ts) (expandShorthand us) := by
  have hvalues : (ts.filter isScalar).map valueMark = (us.filter isScalar).map valueMark := by
    induction h with
    | nil => rfl
    | @cons t u ts us ht _ ih =>
      by_cases hscalar : u.isScalar = true
      · rw [List.filter_cons_of_pos (ht.isScalar_eq.trans hscalar), List.filter_cons_of_pos hscalar,
          List.map_cons, List.map_cons, ih, valueMark, valueMark, ht.kind, ht.text]
      · rw [List.filter_cons_of_neg (ht.isScalar_eq ▸ hscalar), List.filter_cons_of_neg hscalar, ih]
  have hplain : ∀ m ∈ arrowMarks (us.filter isScalar), m.Plain :=
    arrow_plain fun v hv => (List.mem_filter.mp hv).2
  have hts := expansion_spelled ts
  rw [arrowMarks_congr hvalues] at hts
  exact alike_of_spelled hplain hts (expansion_spelled us)

/-! ### Measures -/

/-- A measure of tokens by which no shorthand is smaller than its arrow. -/
structure Shrinks (f : Token → Nat) : Prop where
  alike : ∀ t u, Alike t u → f t = f u
  first : f (Mark.br "\x7b").token + f (Mark.op "==").token + f (Mark.br "\x7d").token ≤
    f (Mark.op "<").token + f (Mark.op ">").token
  next : f (Mark.op "->").token + f (Mark.br "\x7b").token + f (Mark.op "==").token +
    f (Mark.br "\x7d").token ≤ f (Mark.op ",").token

theorem tally_alike {f : Token → Nat} (hf : ∀ t u, Alike t u → f t = f u) {ts us : List Token}
    (h : List.Forall₂ Alike ts us) : tally f ts = tally f us := by
  induction h with
  | nil => rfl
  | cons ht _ ih => rw [tally, tally, hf _ _ ht, ih]

theorem tally_spelled {f : Token → Nat} (hf : ∀ t u, Alike t u → f t = f u) {ms : List Mark}
    {ts : List Token} (hp : ∀ m ∈ ms, m.Plain) (h : Spells ms ts) :
    tally f ts = tally f (ms.map Mark.token) :=
  tally_alike hf (alike_of_spelled hp h (Spells.tokens ms))

theorem arrow_le_shorthand {f : Token → Nat} (hf : Shrinks f) {values ts us : List Token}
    (hne : values ≠ []) (hvalues : ∀ v ∈ values, v.isShorthandValue = true)
    (ht : Spells (arrowMarks values) ts) (hu : Spells (shorthandMarks values) us) :
    tally f ts ≤ tally f us := by
  have hscalar := fun v hv => scalar_of_value (hvalues v hv)
  rw [tally_spelled hf.alike (arrow_plain hscalar) ht, tally_spelled hf.alike (shorthand_plain hscalar) hu]
  obtain ⟨v, vs, rfl⟩ := List.exists_cons_of_ne_nil hne
  have hfirst := hf.first
  have hnext := hf.next
  have hlisted : tally f ((arrowMarks (v :: vs)).map Mark.token) + f (Mark.op ">").token ≤
      tally f ((listedMarks (v :: vs)).map Mark.token) + (f (Mark.br "\x7b").token +
        f (Mark.op "==").token + f (Mark.br "\x7d").token) := by
    clear ht hu hne hvalues hscalar
    induction vs generalizing v with
    | nil =>
      simp only [arrowMarks, listedMarks, separated, equalityMarks, List.map_cons, List.map_nil,
        List.flatMap_nil, List.append_nil, List.cons_append, List.nil_append, tally]
      omega
    | cons w vs ih =>
      have ih := ih w
      have harrow : arrowMarks (v :: w :: vs) = equalityMarks v ++ .op "->" :: arrowMarks (w :: vs) := rfl
      rw [harrow, listedMarks_cons]
      simp only [equalityMarks, List.map_append, List.map_cons, List.map_nil, tally_append, tally]
      omega
  rw [shorthandMarks, List.map_cons, tally]
  omega

theorem shrinks_size : Shrinks size := ⟨fun _ _ h => h.size_eq, by decide, by decide⟩

theorem shrinks_weight : Shrinks Token.weight := by
  refine ⟨fun t u h => ?_, by decide, by decide⟩
  rw [Token.weight, Token.weight, h.isOperator_eq, h.isOperator_eq]

theorem weight_eq_tally (ts : List Token) : Parse.weight ts = tally Token.weight ts := by
  induction ts with
  | nil => rfl
  | cons t ts ih =>
    rw [tally, ← ih]
    rfl

/-! ### Lookaheads on tokens that are alike -/

theorem endsWithOneComma_alike {ts us : List Token} (h : List.Forall₂ Alike ts us)
    (depth commas : Nat) : endsWithOneComma ts depth commas = endsWithOneComma us depth commas := by
  induction h generalizing depth commas with
  | nil => rfl
  | cons ht _ ih => simp only [endsWithOneComma, ht.kind, ht.text, ht.opensGroup_eq, ih]

theorem startsRange_alike {ts us : List Token} (h : List.Forall₂ Alike ts us) :
    startsRange ts = startsRange us := endsWithOneComma_alike h 0 0

theorem shorthandValues_alike {ts us : List Token} (h : List.Forall₂ Alike ts us) :
    shorthandValues? ts = shorthandValues? us := by
  match h with
  | .nil => rfl
  | .cons _ .nil => rfl
  | .cons hv (.cons hs h) =>
    rw [shorthandValues?, shorthandValues?, hv.is_value, hs.isOperator_eq, hs.isOperator_eq,
      shorthandValues_alike h]

theorem shorthandEnd_alike {ts us : List Token} (h : List.Forall₂ Alike ts us) :
    shorthandEnd? ts = shorthandEnd? us := by
  cases h with
  | nil => rfl
  | cons ht h => rw [shorthandEnd?, shorthandEnd?, ht.isOperator_eq, shorthandValues_alike h]

namespace Parse

theorem lambda_close_alike {ts us : List Token} (h : List.Forall₂ Alike ts us) :
    lambdaHead?.close ts = lambdaHead?.close us := by
  match h with
  | .nil => rfl
  | .cons _ .nil => rfl
  | .cons hc (.cons ha _) => rw [lambdaHead?.close, lambdaHead?.close, hc.isBracket_eq, ha.isOperator_eq]

theorem lambda_params_alike {ts us : List Token} (h : List.Forall₂ Alike ts us) :
    lambdaHead?.params ts = lambdaHead?.params us := by
  match h with
  | .nil => rfl
  | .cons _ .nil => rfl
  | .cons hn (.cons hs h) =>
    have htail := lambda_close_alike (.cons hs h)
    have hall := lambda_close_alike (.cons hn (.cons hs h))
    rw [lambdaHead?.params, lambdaHead?.params, hall, htail, hn.isName_eq, hs.isOperator_eq,
      lambda_params_alike h]
    split
    · next hname =>
      have heq := hn.placed (Or.inl (hn.isName_eq.trans hname))
      rw [heq]
    · rfl

theorem lambdaHead_alike {ts us : List Token} (h : List.Forall₂ Alike ts us) :
    lambdaHead? ts = lambdaHead? us := by
  cases h with
  | nil => rfl
  | cons ht h => rw [lambdaHead?, lambdaHead?, ht.isBracket_eq, lambda_params_alike h]

end Parse

end EventRules
